/-
  VyattaRest.Server.Enumeration — the values of a node that its template lists in an expression
  (the syntax branch of `Configuration::get_template_node`, configuration.cc).

  The value `expression: $VAR(@) in "a", "b" ; "message"` is cut at spaces, its words from the
  fourth on are put together again with one space between them, and that is cut at commas; each
  piece ends at its first semicolon, loses the blanks around it and then the quotes. The message
  takes part in all of it, but the first semicolon stands before it and ends the loop.
  - `squeeze_listText`: the list with none or one of the spaces at each place.
  - `enumeration_exact`: whatever the message and the spaces, the words of the list are the ones
    that come into the enumeration.
-/

import VyattaRest.Server.Configuration

namespace VyattaRest.Server.Enumeration

open VyattaRest.Lib VyattaRest.Rest

/-! ## The value -/

def quoted (w : Str) : Str := 34 :: (w ++ [34])

def spaces (n : Nat) : Str := List.replicate n 32

/-- A word with the numbers of spaces before and behind the comma in front of it. -/
structure Further where
  before : Nat
  behind : Nat
  word : Str

/-- The words from `w` on, up to the semicolon and what follows it. -/
def listText (last : Nat) (tail : Str) (w : Str) : List Further → Str
  | [] => quoted w ++ (spaces last ++ 59 :: tail)
  | f :: more => quoted w ++ (spaces f.before ++ 44 :: (spaces f.behind ++ listText last tail f.word more))

def expressionText (w : Str) (more : List Further) (last : Nat) (message : Str) : Str :=
  str "expression: $VAR(@) in " ++ listText last (str " " ++ quoted message) w more

example : expressionText (str "a") [⟨0, 1, str "b"⟩] 1 (str "not a, b") =
    str "expression: $VAR(@) in \"a\", \"b\" ; \"not a, b\"" := by decide

/-- Not empty, without white space, quote, comma, semicolon and tilde. -/
structure IsWord (w : Str) : Prop where
  ne_nil : w ≠ []
  space : ∀ b ∈ w, isSpace b = false
  quote : (34 : UInt8) ∉ w
  comma : (44 : UInt8) ∉ w
  semicolon : (59 : UInt8) ∉ w
  tilde : (126 : UInt8) ∉ w

/-- Without newline, tab and tilde. -/
structure IsMessage (m : Str) : Prop where
  newline : (10 : UInt8) ∉ m
  tab : (9 : UInt8) ∉ m
  tilde : (126 : UInt8) ∉ m

def wordsOf (w : Str) (more : List Further) : List Str := w :: more.map (·.word)

/-! ## Cutting at spaces -/

/-- What is left of a number of spaces. -/
def blank (n : Nat) : Str := if n = 0 then [] else [32]

/-- The list behind the first two steps, `pre` and `w` in front. -/
def squeezed (last : Nat) (tail : Str) (pre w : Str) : List Further → Str
  | [] => pre ++ (quoted w ++ (blank last ++ 59 :: tail))
  | f :: more => pre ++ (quoted w ++ (blank f.before ++ 44 :: squeezed last tail (blank f.behind) f.word more))

theorem IsWord.notMem {w : Str} (hw : IsWord w) {b : UInt8} (hb : isSpace b = true) : b ∉ w := fun hm => by
  rw [hw.space b hm] at hb
  cases hb

theorem space_notMem_quoted {w : Str} (hw : IsWord w) : (32 : UInt8) ∉ quoted w := by
  have := hw.notMem (b := 32) (by decide)
  simp [quoted, this]

theorem squeeze_quoted {w : Str} (hw : IsWord w) (gap next r : Str) :
    squeeze 32 gap next (quoted w ++ r) = gap ++ (quoted w ++ squeeze 32 [] [32] r) :=
  squeeze_append (space_notMem_quoted hw) (List.cons_ne_nil _ _) gap next r

theorem squeeze_byte {b : UInt8} (hb : b ≠ 32) (gap next r : Str) :
    squeeze 32 gap next (b :: r) = gap ++ b :: squeeze 32 [] [32] r := by
  rw [squeeze, if_neg hb]

theorem squeeze_spaces (n : Nat) (r : Str) : squeeze 32 [] [32] (spaces n ++ r) = squeeze 32 (blank n) [32] r :=
  squeeze_replicate n r

theorem squeeze_listText (last : Nat) (tail : Str) : ∀ (more : List Further) {w : Str}, IsWord w → (∀ f ∈ more, IsWord f.word) →
    ∀ gap next, squeeze 32 gap next (listText last tail w more) = squeezed last (squeeze 32 [] [32] tail) gap w more := by
  intro more
  induction more with
  | nil =>
    intro w hw _ gap next
    rw [listText, squeeze_quoted hw, squeeze_spaces, squeeze_byte (by decide)]
    rfl
  | cons f more ih =>
    intro w hw hmore gap next
    obtain ⟨hf, hrest⟩ := List.forall_mem_cons.mp hmore
    rw [listText, squeeze_quoted hw, squeeze_spaces, squeeze_byte (by decide), squeeze_spaces, ih hf hrest]
    rfl

/-! ## One piece -/

theorem semicolon_tag : Tag (str ";") 59 := ⟨[], by decide, List.not_mem_nil⟩

theorem notMem_piece {b : UInt8} {w : Str} (hb : b ∉ w) (hquote : b ≠ 34) (hspace : b ≠ 32) (m k : Nat) :
    b ∉ blank m ++ (quoted w ++ blank k) := by
  have hblank : ∀ n, b ∉ blank n := by
    intro n
    unfold blank
    split <;> simp [hspace]
  simp [quoted, hblank, hb, hquote]

theorem trim_piece (w : Str) (m k : Nat) : trim (blank m ++ (quoted w ++ blank k)) = quoted w := by
  unfold trim blank quoted
  split <;> split <;> simp

theorem unquote_quoted (w : Str) (isEnd : Bool) :
    (if (quoted w).head? = some 34 then
      let p := (quoted w).length - 1 - ((quoted w).reverse.takeWhile (· ≠ 34)).length
      (if p ≠ 0 then substr (quoted w) 1 (p - 1) else quoted w, isEnd)
    else (quoted w, isEnd)) = (w, isEnd) := by
  have hlen : (quoted w).length - 1 - ((quoted w).reverse.takeWhile (· ≠ 34)).length = w.length + 1 := by
    simp [quoted]
  have hhead : (quoted w).head? = some 34 := rfl
  simp only [hhead, hlen, if_true]
  rw [if_pos (Nat.succ_ne_zero _), substr, quoted, List.drop_one, List.tail_cons, Nat.add_sub_cancel, List.take_left]

theorem syntaxWord_piece {w : Str} (hw : IsWord w) (m k : Nat) : syntaxWord (blank m ++ (quoted w ++ blank k)) = (w, false) := by
  have hnone : find (str ";") (blank m ++ (quoted w ++ blank k)) = none :=
    find_none_of_notMem semicolon_tag (notMem_piece hw.semicolon (by decide) (by decide) m k)
  rw [syntaxWord, hnone]
  simp only [trim_piece]
  exact unquote_quoted w false

theorem syntaxWord_last {w : Str} (hw : IsWord w) (m k : Nat) (t : Str) :
    syntaxWord (blank m ++ (quoted w ++ (blank k ++ 59 :: t))) = (w, true) := by
  have hni : ¬ str ";" <:+: blank m ++ (quoted w ++ blank k) :=
    find_eq_none_iff.mp (find_none_of_notMem semicolon_tag (notMem_piece hw.semicolon (by decide) (by decide) m k))
  have hassoc : blank m ++ (quoted w ++ (blank k ++ 59 :: t)) = (blank m ++ (quoted w ++ blank k)) ++ (str ";" ++ t) := by
    rw [show str ";" = [59] by decide]
    simp only [List.append_assoc, List.singleton_append]
  rw [syntaxWord, hassoc, find_at_tag semicolon_tag hni]
  simp only [List.take_left, trim_piece]
  exact unquote_quoted w true

/-! ## Cutting at commas -/

/-- The piece that a text without a comma begins. -/
theorem cut_comma_first {a : Str} (ha : (44 : UInt8) ∉ a) (htilde : (126 : UInt8) ∉ a) {b : UInt8} (hb : b ≠ 44) (hb' : b ≠ 126)
    {t : Str} (ht : (126 : UInt8) ∉ t) : ∃ t' pieces, cut [44] 126 (a ++ b :: t) = (a ++ b :: t') :: pieces := by
  have hne : ∀ t' : Str, a ++ b :: t' ≠ [] := by simp
  have hplain : ∀ t' : Str, (44 : UInt8) ∉ t' → (126 : UInt8) ∉ t' →
      (44 : UInt8) ∉ a ++ b :: t' ∧ (126 : UInt8) ∉ a ++ b :: t' := by
    intro t' h h'
    simp [ha, htilde, h, h', Ne.symm hb, Ne.symm hb']
  rcases hf : find [44] t with _ | i
  · have hno : (44 : UInt8) ∉ t := singleton_not_infix.mp (find_eq_none_iff.mp hf)
    obtain ⟨h, h'⟩ := hplain t hno ht
    exact ⟨t, [], cut_plain ( singleton_not_infix.mpr h) h' (hne t)⟩
  · have hni := not_infix_take_of_find (List.cons_ne_nil 44 []) hf
    obtain ⟨t₀, t₁, rfl, rfl⟩ := find_split hf
    rw [List.append_assoc, List.take_left, singleton_not_infix] at hni
    obtain ⟨h, h'⟩ := hplain t₀ hni fun hm => ht (List.mem_append_left _ (List.mem_append_left _ hm))
    refine ⟨t₀, cut [44] 126 t₁, ?_⟩
    have hassoc : a ++ b :: (t₀ ++ [44] ++ t₁) = (a ++ b :: t₀) ++ 44 :: t₁ := by simp
    rw [hassoc, cut_word h h' (hne t₀)]

theorem mem_insert {enum : StrSet} {w x : Str} : x ∈ StrSet.toList (enum.insert w ()) ↔ x ∈ enum.toList ∨ x = w := by
  have := StrSet.mem_insertAll [w] (x := x) enum
  rwa [List.mem_singleton] at this

/-- The loop over the pieces takes the words of the list and no others. -/
theorem mem_syntaxWords (last : Nat) {tail : Str} (htail : (126 : UInt8) ∉ tail) : ∀ (more : List Further) {w : Str}, IsWord w →
    (∀ f ∈ more, IsWord f.word) → ∀ (m : Nat) (enum : StrSet) (x : Str),
      x ∈ (syntaxWords (cut [44] 126 (squeezed last tail (blank m) w more)) enum).toList ↔
        x ∈ enum.toList ∨ x ∈ wordsOf w more := by
  intro more
  induction more with
  | nil =>
    intro w hw _ m enum x
    obtain ⟨t, pieces, hcut⟩ := cut_comma_first (a := blank m ++ (quoted w ++ blank last)) (b := 59)
      (notMem_piece hw.comma (by decide) (by decide) m last) (notMem_piece hw.tilde (by decide) (by decide) m last)
      (by decide) (by decide) htail
    simp only [List.append_assoc] at hcut
    rw [squeezed, hcut, syntaxWords, syntaxWord_last hw]
    simp only [List.isEmpty_eq_false_iff.mpr hw.ne_nil, Bool.false_eq_true, if_false, if_true]
    rw [mem_insert]
    simp [wordsOf]
  | cons f more ih =>
    intro w hw hmore m enum x
    obtain ⟨hf, hrest⟩ := List.forall_mem_cons.mp hmore
    have hcut := cut_word (x := 44) (y := 126) (a := blank m ++ (quoted w ++ blank f.before))
      (notMem_piece hw.comma (by decide) (by decide) m f.before) (notMem_piece hw.tilde (by decide) (by decide) m f.before)
      (by simp [quoted]) (squeezed last tail (blank f.behind) f.word more)
    simp only [List.append_assoc] at hcut
    rw [squeezed, hcut, syntaxWords, syntaxWord_piece hw]
    simp only [List.isEmpty_eq_false_iff.mpr hw.ne_nil, Bool.false_eq_true, if_false]
    rw [ih hf hrest, mem_insert]
    simp [wordsOf, or_assoc]

/-! ## The whole value -/

theorem getRange_eq (first rest : List Str) :
    StrProc.getRange (first ++ rest) first.length (first ++ rest).length = [32].intercalate rest := by
  rw [StrProc.getRange, List.take_length, List.drop_left, show str " " = [32] by decide, dropLast_separated]

theorem notMem_listText {b : UInt8} (hquote : b ≠ 34) (hspace : b ≠ 32) (hcomma : b ≠ 44) (hsemicolon : b ≠ 59) (last : Nat)
    {tail : Str} (htail : b ∉ tail) : ∀ (more : List Further) {w : Str}, b ∉ w → (∀ f ∈ more, b ∉ f.word) →
      b ∉ listText last tail w more := by
  have hspaces : ∀ n, b ∉ spaces n := fun n hm => hspace (List.eq_of_mem_replicate hm)
  have hquoted : ∀ {w : Str}, b ∉ w → b ∉ quoted w := fun hw => by simp [quoted, hw, hquote]
  intro more
  induction more with
  | nil =>
    intro w hw _
    simp [listText, hquoted hw, hspaces, htail, hsemicolon]
  | cons f more ih =>
    intro w hw hmore
    obtain ⟨hf, hrest⟩ := List.forall_mem_cons.mp hmore
    simp [listText, hquoted hw, hspaces, hcomma, ih hf hrest]

section Value

variable {w : Str} {more : List Further} {message : Str} (hw : IsWord w) (hmore : ∀ f ∈ more, IsWord f.word)
  (hm : IsMessage message) (last : Nat)

include hw hmore hm

/-- None of the bytes that the cuts treat in a way of their own. -/
theorem notMem_list {b : UInt8} (hb : b = 9 ∨ b = 10 ∨ b = 126) : b ∉ listText last (str " " ++ quoted message) w more := by
  have hother : b ≠ 34 ∧ b ≠ 32 ∧ b ≠ 44 ∧ b ≠ 59 := by rcases hb with rfl | rfl | rfl <;> decide
  have hword : ∀ {v : Str}, IsWord v → b ∉ v := by
    intro v hv
    rcases hb with rfl | rfl | rfl
    · exact hv.notMem (by decide)
    · exact hv.notMem (by decide)
    · exact hv.tilde
  have hmessage : b ∉ message := by
    rcases hb with rfl | rfl | rfl
    · exact hm.tab
    · exact hm.newline
    · exact hm.tilde
  refine notMem_listText hother.1 hother.2.1 hother.2.2.1 hother.2.2.2 last ?_ more (hword hw) fun f hf => hword (hmore f hf)
  rw [show str " " = [32] by decide]
  simp [quoted, hmessage, hother.1, hother.2.1]

theorem fields_value : strProc (expressionText w more last message) (str " ") =
    [str "expression:", str "$VAR(@)", str "in"] ++ cut [32] 126 (listText last (str " " ++ quoted message) w more) := by
  have hplain : ∀ b : UInt8, b = 9 ∨ b = 10 ∨ b = 126 → b ∉ expressionText w more last message := by
    intro b hb
    have hlist := notMem_list hw hmore hm last hb
    have hhead : b ∉ str "expression: $VAR(@) in " := by rcases hb with rfl | rfl | rfl <;> decide
    rw [expressionText, List.mem_append, not_or]
    exact ⟨hhead, hlist⟩
  have hcount : (expressionText w more last message).count 10 ≠ 1 := by
    rw [List.count_eq_zero_of_not_mem (hplain 10 (by decide))]
    decide
  have hvalue : expressionText w more last message = str "expression:" ++ 32 :: (str "$VAR(@)" ++ 32 :: (str "in" ++ 32 ::
      listText last (str " " ++ quoted message) w more)) := by
    rw [expressionText, show str "expression: $VAR(@) in " =
      str "expression:" ++ 32 :: (str "$VAR(@)" ++ 32 :: (str "in" ++ [32]))
      by decide]
    simp only [List.append_assoc, List.cons_append, List.nil_append]
  rw [strProc_plain (hplain 9 (by decide)) hcount, show str " " = [32] by decide, hvalue,
    cut_word (by decide) (by decide) (by decide), cut_word (by decide) (by decide) (by decide),
    cut_word (by decide) (by decide) (by decide)]
  rfl

/-- What the words from the fourth on are put together to, and what it is cut into. -/
theorem fields_joined : cut [32] 126 (listText last (str " " ++ quoted message) w more) ≠ [] ∧
    strProc ([32].intercalate (cut [32] 126 (listText last (str " " ++ quoted message) w more))) (str ",") =
      cut [44] 126 (squeezed last (squeeze 32 [] [32] (str " " ++ quoted message)) (blank 0) w more) := by
  have hjoin := (squeeze_cut (x := 32) (notMem_list hw hmore hm last (b := 126) (by decide))).1
  have hplain : ∀ b : UInt8, b = 9 ∨ b = 10 → b ∉ squeeze 32 [] [] (listText last (str " " ++ quoted message) w more) := by
    intro b hb
    have hspace : b ≠ 32 := by rcases hb with rfl | rfl <;> decide
    have hlist : b ∉ listText last (str " " ++ quoted message) w more :=
      notMem_list hw hmore hm last (by rcases hb with rfl | rfl <;> decide)
    exact notMem_squeeze hspace hlist List.not_mem_nil List.not_mem_nil
  have hcount : (squeeze 32 [] [] (listText last (str " " ++ quoted message) w more)).count 10 ≠ 1 := by
    rw [List.count_eq_zero_of_not_mem (hplain 10 (by decide))]
    decide
  have hlist := squeeze_listText last (str " " ++ quoted message) more hw hmore [] []
  constructor
  · intro hnil
    rw [hnil, hlist] at hjoin
    cases more <;> simp [squeezed, quoted] at hjoin
  · rw [← hjoin, strProc_plain (hplain 9 (by decide)) hcount, hlist, show str "," = [44] by decide]
    rfl

end Value

/-- The words of the list, and only they, come into the enumeration. -/
theorem enumeration_exact {w : Str} {more : List Further} {message : Str} (hw : IsWord w) (hmore : ∀ f ∈ more, IsWord f.word)
    (hm : IsMessage message) (last : Nat) (p : TemplateParams) (isValue : Bool) :
    ∃ enum, templateEntry (str "syntax") (expressionText w more last message) p isValue = some ({ p with enum }, isValue) ∧
      ∀ x, x ∈ enum.toList ↔ x ∈ p.enum.toList ∨ x ∈ wordsOf w more := by
  refine ⟨syntaxEnum (expressionText w more last message) p.enum, rfl, fun x => ?_⟩
  obtain ⟨hne, hpieces⟩ := fields_joined hw hmore hm last
  have hlong : 3 < ([str "expression:", str "$VAR(@)", str "in"] ++
      cut [32] 126 (listText last (str " " ++ quoted message) w more)).length := by
    have := List.length_pos_of_ne_nil hne
    rw [List.length_append]
    simp only [List.length_cons, List.length_nil]
    omega
  have htail : (126 : UInt8) ∉ squeeze 32 [] [32] (str " " ++ quoted message) := by
    refine notMem_squeeze (by decide) ?_ List.not_mem_nil (by decide)
    rw [show str " " = [32] by decide]
    simp [quoted, hm.tilde]
  have hrange := getRange_eq [str "expression:", str "$VAR(@)", str "in"]
    (cut [32] 126 (listText last (str " " ++ quoted message) w more))
  rw [show List.length [str "expression:", str "$VAR(@)", str "in"] = 3 from rfl] at hrange
  rw [syntaxEnum, fields_value hw hmore hm last, if_pos ⟨hlong, rfl⟩, hrange, hpieces]
  exact mem_syntaxWords last htail more hw hmore 0 p.enum x

/-- A list of two, and a message with all that may stand in one. -/
theorem an_expression_is_read : ∃ enum, templateEntry (str "syntax")
      (str "expression: $VAR(@) in \"all\" ,\"none\"; \"all, \"x\"; none\"") {} false = some ({ enum }, false) ∧
    ∀ x, x ∈ enum.toList ↔ x ∈ [str "all", str "none"] := by
  have hw : IsWord (str "all") := ⟨by decide, by decide, by decide, by decide, by decide, by decide⟩
  have hmore : ∀ f ∈ [(⟨1, 0, str "none"⟩ : Further)], IsWord f.word :=
    List.forall_mem_singleton.mpr ⟨by decide, by decide, by decide, by decide, by decide, by decide⟩
  have hm : IsMessage (str "all, \"x\"; none") := ⟨by decide, by decide, by decide⟩
  obtain ⟨enum, hentry, henum⟩ := enumeration_exact hw hmore hm 0 {} false
  have htext : expressionText (str "all") [⟨1, 0, str "none"⟩] 0 (str "all, \"x\"; none") =
      str "expression: $VAR(@) in \"all\" ,\"none\"; \"all, \"x\"; none\"" := by decide
  rw [htext] at hentry
  refine ⟨enum, hentry, fun x => (henum x).trans ?_⟩
  have hempty : StrSet.toList (TemplateParams.enum {}) = [] := rfl
  rw [hempty]
  simp [wordsOf]

end VyattaRest.Server.Enumeration
