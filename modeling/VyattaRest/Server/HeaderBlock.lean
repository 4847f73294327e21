/-
  VyattaRest.Server.HeaderBlock — the header lines in front of a script's output
  (`Mode::handle_cmd_output`, mode.cc).

  Up to four lines name fields of the response; CR LF LF ends them. The lines are taken apart
  by `StrProc`, which removes a newline that is the only one, so two lines are read as one. The
  values of Content-Type and Set-Cookie are taken from one byte behind the colon on, the
  others from the colon on.
  - `headers_exact_iff`: the fields that are named get their values, whatever they held before,
    exactly when there are not two lines, no value holds a NUL, and the values of Content-Type
    and Set-Cookie are longer than the space they begin with.
  - `two_headers_are_read_as_one`: a Content-Type and a Set-Cookie.
-/

import VyattaRest.Lib.Strip
import VyattaRest.Server.AppMode

namespace VyattaRest.Server.Mode

open VyattaRest.Lib VyattaRest.Rest

inductive HeaderName where
  | contentType
  | setCookie
  | cacheControl
  | contentDisposition
  deriving DecidableEq, Repr

/-- A name and its colon. -/
def HeaderName.text : HeaderName → Str
  | .contentType => str "Content-Type:"
  | .setCookie => str "Set-Cookie:"
  | .cacheControl => str "Cache-Control:"
  | .contentDisposition => str "Content-Disposition:"

def HeaderName.key : HeaderName → Key
  | .contentType => .respContentType
  | .setCookie => .respCookie
  | .cacheControl => .respCacheControl
  | .contentDisposition => .respContentDisposition

/-- A line: a name, what stands behind its colon, and whether CR LF or LF joins it to the next. -/
structure HeaderLine where
  name : HeaderName
  value : Str
  crlf : Bool

/-- The lines without their LF. The CR stays with the line, and the last line has none: the
    next CR ends the block. -/
def tails : List HeaderLine → List (HeaderName × Str)
  | [] => []
  | [l] => [(l.name, l.value)]
  | l :: l' :: r => (l.name, l.value ++ if l.crlf then str "\x0d" else []) :: tails (l' :: r)

def lineText (p : HeaderName × Str) : Str := p.1.text ++ p.2

def block (ls : List HeaderLine) : Str := (str "\n").intercalate ((tails ls).map lineText)

/-- A value that a line can carry. -/
structure HeaderLine.Valid (l : HeaderLine) : Prop where
  ne_nil : l.value ≠ []
  no_cr : (13 : UInt8) ∉ l.value
  no_lf : (10 : UInt8) ∉ l.value
  no_tab : (9 : UInt8) ∉ l.value
  no_tilde : (126 : UInt8) ∉ l.value
  no_disable : l.name = .cacheControl → ¬ str "vyatta-disable" <:+: l.value

/-- What the block is for. -/
structure Honoured (ls : List HeaderLine) (body : Str) (s s' : Session) : Prop where
  named : ∀ l ∈ ls, strip (s'.response.get l.name.key) = strip l.value
  body : s'.response.get .body = body
  others : ∀ k, k ≠ .body → (∀ l ∈ ls, l.name.key ≠ k) → s'.response.get k = s.response.get k

/-! ## One line -/

/-- What a line sets its field to, if anything. -/
def assigned (p : HeaderName × Str) : Option Str :=
  match p.1 with
  | .contentType | .setCookie => if 1 < p.2.length then some (cstr (p.2.drop 1)) else none
  | .cacheControl | .contentDisposition => if p.2.isEmpty then none else some (cstr p.2)

theorem get_set (h : Http) (key k : Key) (val : Str) : (h.set key val).get k = if k = key then val else h.get k := by
  unfold Http.set Http.get
  by_cases hk : k = key <;> simp [hk]

/-- No two names agree in their first nine bytes, which all of them have. -/
theorem starts_with (n n' : HeaderName) (t : Str) :
    startsWithIgnoringCase n'.text (n.text ++ t) = decide (n' = n) := by
  by_cases h : n' = n
  · subst h
    simp [startsWithIgnoringCase]
  · rw [decide_eq_false h]
    refine Bool.eq_false_iff.mpr fun heq => ?_
    rw [startsWithIgnoringCase, beq_iff_eq] at heq
    have hlen : ∀ n : HeaderName, 9 ≤ n.text.length := by
      intro n
      cases n <;> decide
    have hnine := congrArg (List.take 9) heq
    rw [← List.map_take, ← List.map_take, List.take_take, Nat.min_eq_left (hlen n'),
      List.take_append_of_le_length (hlen n)] at hnine
    revert h hnine
    cases n <;> cases n' <;> decide

theorem length_text (p : HeaderName × Str) : (lineText p).length = p.1.text.length + p.2.length := List.length_append

theorem drop_text (p : HeaderName × Str) (i : Nat) : (lineText p).drop (p.1.text.length + i) = p.2.drop i := by
  rw [lineText, ← List.drop_drop, List.drop_left]

/-- What a line does to the response. -/
theorem override_line (p : HeaderName × Str) (r : Http) : override (lineText p) r =
    match p.1 with
    | .contentType =>
      if 1 < p.2.length then { r.set .respContentType (cstr (p.2.drop 1)) with verbatimBody := true } else r
    | .setCookie => if 1 < p.2.length then r.set .respCookie (cstr (p.2.drop 1)) else r
    | .cacheControl =>
      if 0 < p.2.length then
        if contains (cstr p.2) (str "vyatta-disable") then r.erase .respCacheControl
        else r.set .respCacheControl (cstr p.2)
      else r
    | .contentDisposition => if 0 < p.2.length then r.set .respContentDisposition (cstr p.2) else r := by
  obtain ⟨n, t⟩ := p
  have h1 : startsWithIgnoringCase (str "Content-Type:") (lineText (n, t)) = decide (.contentType = n) :=
    starts_with n .contentType t
  have h2 : startsWithIgnoringCase (str "Set-Cookie:") (lineText (n, t)) = decide (.setCookie = n) :=
    starts_with n .setCookie t
  have h3 : startsWithIgnoringCase (str "Cache-Control:") (lineText (n, t)) = decide (.cacheControl = n) :=
    starts_with n .cacheControl t
  have h4 : startsWithIgnoringCase (str "Content-Disposition:") (lineText (n, t)) = decide (.contentDisposition = n) :=
    starts_with n .contentDisposition t
  have hlen := length_text (n, t)
  have hdrop := drop_text (n, t)
  rw [override, h1, h2, h3, h4]
  cases n with
  | contentType =>
    have hthirteen : HeaderName.contentType.text.length = 13 := by decide
    rw [hthirteen] at hlen hdrop
    rw [if_pos (by decide), hlen, hdrop 1]
    simp only [show 14 < 13 + t.length ↔ 1 < t.length by omega]
  | setCookie =>
    have heleven : HeaderName.setCookie.text.length = 11 := by decide
    rw [heleven] at hlen hdrop
    rw [if_neg (by decide), if_pos (by decide), hlen, hdrop 1]
    simp only [show 12 < 11 + t.length ↔ 1 < t.length by omega]
  | cacheControl =>
    have hfourteen : HeaderName.cacheControl.text.length = 14 := by decide
    rw [hfourteen] at hlen hdrop
    rw [if_neg (by decide), if_neg (by decide), if_pos (by decide), hlen, hdrop 0, List.drop_zero]
    simp only [show 14 < 14 + t.length ↔ 0 < t.length by omega]
  | contentDisposition =>
    have htwenty : HeaderName.contentDisposition.text.length = 20 := by decide
    rw [htwenty] at hlen hdrop
    rw [if_neg (by decide), if_neg (by decide), if_neg (by decide), if_pos (by decide), hlen, hdrop 0, List.drop_zero]
    simp only [show 20 < 20 + t.length ↔ 0 < t.length by omega]

theorem get_erase (h : Http) (key k : Key) : (h.erase key).get k = if k = key then [] else h.get k := by
  unfold Http.erase Http.get
  by_cases hk : k = key <;> simp [hk]

/-- No other field is touched, whatever stands behind the colon. -/
theorem override_other (p : HeaderName × Str) (r : Http) {k : Key} (hk : k ≠ p.1.key) :
    (override (lineText p) r).get k = r.get k := by
  have hset : ∀ val, (r.set p.1.key val).get k = r.get k := fun val => by rw [get_set, if_neg hk]
  have herase : (r.erase p.1.key).get k = r.get k := by rw [get_erase, if_neg hk]
  obtain ⟨n, t⟩ := p
  rw [override_line]
  cases n with
  | contentType =>
    dsimp only
    split
    · exact hset _
    · rfl
  | setCookie =>
    dsimp only
    split
    · exact hset _
    · rfl
  | cacheControl =>
    dsimp only
    split
    · split
      · exact herase
      · exact hset _
    · rfl
  | contentDisposition =>
    dsimp only
    split
    · exact hset _
    · rfl

/-- A line that turns nothing off. -/
def KeepsCache (p : HeaderName × Str) : Prop := p.1 = .cacheControl → ¬ str "vyatta-disable" <:+: p.2

theorem override_own {p : HeaderName × Str} (hd : KeepsCache p) (r : Http) :
    (override (lineText p) r).get p.1.key = (assigned p).getD (r.get p.1.key) := by
  have hset : ∀ val, (r.set p.1.key val).get p.1.key = val := fun val => by rw [get_set, if_pos rfl]
  obtain ⟨n, t⟩ := p
  rw [override_line]
  cases n with
  | contentType =>
    simp only [assigned]
    split
    · exact hset _
    · rfl
  | setCookie =>
    simp only [assigned]
    split
    · exact hset _
    · rfl
  | cacheControl =>
    have hno : contains (cstr t) (str "vyatta-disable") = false := by
      refine Bool.eq_false_iff.mpr fun hc => ?_
      exact hd rfl ((contains_iff.mp hc).trans ( cstr_prefix t).isInfix)
    simp only [assigned, hno, List.isEmpty_iff, Bool.false_eq_true, if_false]
    rcases t with _ | ⟨b, t⟩
    · rfl
    · exact hset _
  | contentDisposition =>
    simp only [assigned, List.isEmpty_iff]
    rcases t with _ | ⟨b, t⟩
    · rfl
    · exact hset _

/-! ## The lines after one another -/

theorem overrides_other : ∀ (ps : List (HeaderName × Str)) (r : Http) {k : Key}, (∀ p ∈ ps, p.1.key ≠ k) →
    ((ps.map lineText).foldl (fun r line => override line r) r).get k = r.get k := by
  intro ps
  induction ps with
  | nil => intro r k _; rfl
  | cons p ps ih =>
    intro r k h
    rw [List.map_cons, List.foldl_cons, ih _ fun q hq => h q (List.mem_cons_of_mem _ hq),
      override_other p r (Ne.symm (h p List.mem_cons_self))]

theorem key_injective {n n' : HeaderName} (h : n.key = n'.key) : n = n' := by
  revert h
  cases n <;> cases n' <;> decide

/-- Of lines with distinct names, each sets its own field. -/
theorem overrides_own : ∀ (ps : List (HeaderName × Str)) (r : Http), (ps.map (·.1)).Nodup → (∀ p ∈ ps, KeepsCache p) →
    ∀ p ∈ ps, ((ps.map lineText).foldl (fun r line => override line r) r).get p.1.key =
      (assigned p).getD (r.get p.1.key) := by
  intro ps
  induction ps with
  | nil => intro r _ _ p hp; cases hp
  | cons q ps ih =>
    intro r hnodup hkeep p hp
    rw [List.map_cons, List.nodup_cons] at hnodup
    rw [List.map_cons, List.foldl_cons]
    have hne : ∀ p' ∈ ps, p'.1 ≠ q.1 := by
      intro p' hp' e
      exact hnodup.1 (e ▸ List.mem_map_of_mem hp')
    rcases List.mem_cons.mp hp with rfl | hp
    · rw [overrides_other ps _ fun p' hp' e => hne p' hp' (key_injective e),
        override_own (hkeep p List.mem_cons_self)]
    · rw [ih _ hnodup.2 (fun p' hp' => hkeep p' (List.mem_cons_of_mem _ hp')) p hp,
        override_other q r fun e => hne p hp (key_injective e)]

/-! ## The lines of a block -/

/-- A line that `StrProc` gives back as it is. -/
structure Plain (line : Str) : Prop where
  ne_nil : line ≠ []
  no_lf : (10 : UInt8) ∉ line
  no_tab : (9 : UInt8) ∉ line
  no_tilde : (126 : UInt8) ∉ line

theorem text_plain (n : HeaderName) : Plain n.text := by
  cases n <;> exact ⟨by decide, by decide, by decide, by decide⟩

theorem lineText_plain {n : HeaderName} {t : Str} (h1 : (10 : UInt8) ∉ t) (h2 : (9 : UInt8) ∉ t) (h3 : (126 : UInt8) ∉ t) :
    Plain (lineText (n, t)) := by
  obtain ⟨hne, hlf, htab, htilde⟩ := text_plain n
  refine ⟨by simp [lineText, hne], ?_, ?_, ?_⟩
  all_goals
    rw [lineText, List.mem_append, not_or]
    exact ⟨by assumption, by assumption⟩

theorem newline_eq : str "\n" = [10] := by decide

theorem tag_newline : Tag (str "\n") 10 := ⟨[], by decide, by simp⟩

theorem joined_cons (a b : Str) (ls : List Str) :
    (str "\n").intercalate (a :: b :: ls) = a ++ (str "\n" ++ (str "\n").intercalate (b :: ls)) := by
  simp [List.intercalate]

/-- No two newlines stand side by side, and none in front. -/
theorem joined_spread : ∀ {ls : List Str}, (∀ l ∈ ls, Plain l) →
    ¬ [10, 10] <:+: (str "\n").intercalate ls ∧ ((str "\n").intercalate ls).head? ≠ some 10 := by
  intro ls
  induction ls with
  | nil => intro _; simp [List.intercalate]
  | cons a ls ih =>
    intro h
    have ha := h a List.mem_cons_self
    have hhead : a.head? ≠ some 10 := fun e => ha.no_lf (List.mem_of_mem_head? e)
    rcases ls with _ | ⟨b, ls⟩
    · rw [show (str "\n").intercalate [a] = a by simp [List.intercalate]]
      exact ⟨fun hi => ha.no_lf (hi.subset (by simp)), hhead⟩
    · obtain ⟨h1, h2⟩ := ih fun l hl => h l (List.mem_cons_of_mem _ hl)
      rw [joined_cons, newline_eq, List.singleton_append]
      rw [newline_eq] at h1 h2
      refine ⟨fun hi => ?_, ?_⟩
      · rcases infix_split hi with ⟨a', ha', hpre⟩ | hi
        · rcases a' with _ | ⟨c, a'⟩
          · rw [List.nil_append, List.cons_prefix_cons] at hpre
            obtain ⟨r, hr⟩ := hpre.2
            exact h2 (by rw [← hr]; rfl)
          · rw [List.cons_append, List.cons_prefix_cons] at hpre
            exact ha.no_lf (ha'.subset (by rw [← hpre.1]; simp))
        · exact h1 hi
      · rwa [List.head?_append_of_ne_nil _ ha.ne_nil]

theorem mem_joined {ls : List Str} {b : UInt8} (hb : b ≠ 10) (h : ∀ l ∈ ls, b ∉ l) : b ∉ (str "\n").intercalate ls := by
  intro hm
  rcases mem_intercalate hm with hm | ⟨l, hl, hm⟩
  · rw [newline_eq, List.mem_singleton] at hm
    exact hb hm
  · exact h l hl hm

theorem count_joined : ∀ {ls : List Str}, (∀ l ∈ ls, Plain l) → ((str "\n").intercalate ls).count 10 = ls.length - 1 := by
  intro ls
  induction ls with
  | nil => intro _; rfl
  | cons a ls ih =>
    intro h
    have ha : a.count 10 = 0 := List.count_eq_zero.mpr (h a List.mem_cons_self).no_lf
    rcases ls with _ | ⟨b, ls⟩
    · rw [show (str "\n").intercalate [a] = a by simp [List.intercalate], ha]
      rfl
    · rw [joined_cons, List.count_append, List.count_append, ih fun l hl => h l (List.mem_cons_of_mem _ hl), ha,
        show (str "\n").count 10 = 1 by decide]
      simp only [List.length_cons]
      omega

theorem cut_joined : ∀ {ls : List Str}, (∀ l ∈ ls, Plain l) → cut (str "\n") 126 ((str "\n").intercalate ls) = ls := by
  intro ls
  induction ls with
  | nil => intro _; decide
  | cons a ls ih =>
    intro h
    have ha := h a List.mem_cons_self
    have hcut : cut (str "\n") 126 a = [a] := by
      refine cut_plain (fun hi => ha.no_lf (hi.subset ?_)) ha.no_tilde ha.ne_nil
      rw [newline_eq]
      exact List.mem_cons_self
    rcases ls with _ | ⟨b, ls⟩
    · rw [show (str "\n").intercalate [a] = a by simp [List.intercalate], hcut]
    · rw [joined_cons, cut_append tag_newline, hcut, ih fun l hl => h l (List.mem_cons_of_mem _ hl)]
      rfl

/-- All lines are found, unless there are two. -/
theorem strProc_joined {ls : List Str} (h : ∀ l ∈ ls, Plain l) (h2 : ls.length ≠ 2) :
    strProc ((str "\n").intercalate ls) (str "\n") = ls := by
  rw [strProc_plain (mem_joined (by decide) fun l hl => (h l hl).no_tab) (by rw [count_joined h]; omega), cut_joined h]

/-- Two lines are one. -/
theorem strProc_pair {a b : Str} (ha : Plain a) (hb : Plain b) :
    strProc ((str "\n").intercalate [a, b]) (str "\n") = [a ++ b] := by
  have htab : (9 : UInt8) ∉ (str "\n").intercalate [a, b] := by
    refine mem_joined (by decide) fun l hl => ?_
    simp only [List.mem_cons, List.not_mem_nil, or_false] at hl
    rcases hl with rfl | rfl
    · exact ha.no_tab
    · exact hb.no_tab
  have hpair : (str "\n").intercalate [a, b] = a ++ 10 :: b := by
    rw [joined_cons, newline_eq]
    simp [List.intercalate]
  have hdrop : dropLoneNewline (a ++ 10 :: b) = a ++ b := by
    have h1 : a.count 10 = 0 := List.count_eq_zero.mpr ha.no_lf
    have h2 : b.count 10 = 0 := List.count_eq_zero.mpr hb.no_lf
    rw [dropLoneNewline, if_pos (by simp [h1, h2]), List.erase_append_right _ ha.no_lf, List.erase_cons_head]
  rw [strProc_eq, expandTabs_of_notMem htab, hpair, hdrop]
  refine cut_plain (fun hi => ?_) ?_ (by simp [ha.ne_nil])
  · have : (10 : UInt8) ∈ a ++ b := hi.subset (by decide)
    rcases List.mem_append.mp this with h | h
    · exact ha.no_lf h
    · exact hb.no_lf h
  · rw [List.mem_append, not_or]
    exact ⟨ha.no_tilde, hb.no_tilde⟩

/-! ## Lines and what is seen of them -/

/-- A line as it stands in the block, with or without a CR. -/
def Shows (l : HeaderLine) (p : HeaderName × Str) : Prop := p.1 = l.name ∧ (p.2 = l.value ∨ p.2 = l.value ++ [13])

theorem shows_first (l : HeaderLine) : Shows l (l.name, l.value ++ if l.crlf then str "\x0d" else []) := by
  refine ⟨rfl, ?_⟩
  dsimp only
  split
  · exact Or.inr rfl
  · exact Or.inl (List.append_nil _)

theorem tail_of_line : ∀ {ls : List HeaderLine} {l : HeaderLine}, l ∈ ls → ∃ p ∈ tails ls, Shows l p
  | [l'], l, h => by
    obtain rfl := List.mem_singleton.mp h
    exact ⟨_, List.mem_cons_self, rfl, Or.inl rfl⟩
  | l' :: l'' :: r, l, h => by
    rcases List.mem_cons.mp h with rfl | h
    · exact ⟨_, List.mem_cons_self, shows_first l⟩
    · obtain ⟨p, hp, hs⟩ := tail_of_line h
      exact ⟨p, List.mem_cons_of_mem _ hp, hs⟩

theorem line_of_tail : ∀ {ls : List HeaderLine} {p : HeaderName × Str}, p ∈ tails ls → ∃ l ∈ ls, Shows l p
  | [l], p, h => by
    obtain rfl := List.mem_singleton.mp h
    exact ⟨l, List.mem_cons_self, rfl, Or.inl rfl⟩
  | l :: l' :: r, p, h => by
    rcases List.mem_cons.mp h with rfl | h
    · exact ⟨l, List.mem_cons_self, shows_first l⟩
    · obtain ⟨l'', hl, hs⟩ := line_of_tail h
      exact ⟨l'', List.mem_cons_of_mem _ hl, hs⟩

theorem tails_names : ∀ ls : List HeaderLine, (tails ls).map (·.1) = ls.map (·.name)
  | [] => rfl
  | [_] => rfl
  | l :: l' :: r => by rw [tails, List.map_cons, List.map_cons, tails_names (l' :: r)]

theorem length_tails (ls : List HeaderLine) : (tails ls).length = ls.length := by
  have h := congrArg List.length (tails_names ls)
  rwa [List.length_map, List.length_map] at h

section Lines

variable {l : HeaderLine} {p : HeaderName × Str} (hs : Shows l p) (hv : l.Valid)

include hs

theorem strip_tail : strip p.2 = strip l.value := by
  rcases hs.2 with h | h
  · rw [h]
  · rw [h, strip_concat (by decide)]

include hv

theorem tail_ne_nil : p.2 ≠ [] := by
  rcases hs.2 with h | h
  · rw [h]
    exact hv.ne_nil
  · rw [h]
    simp

theorem lineText_tail_plain : Plain (lineText p) := by
  have hnot : ∀ b : UInt8, b ≠ 13 → b ∉ l.value → b ∉ p.2 := by
    intro b hb hl
    rcases hs.2 with h | h
    · rw [h]
      exact hl
    · simp [h, hl, hb]
  exact lineText_plain (hnot 10 (by decide) hv.no_lf) (hnot 9 (by decide) hv.no_tab) (hnot 126 (by decide) hv.no_tilde)

theorem keepsCache_tail : KeepsCache p := by
  intro hname hi
  rw [hs.1] at hname
  rcases hs.2 with h | h
  · rw [h] at hi
    exact hv.no_disable hname hi
  · rw [h, List.infix_concat_iff] at hi
    rcases hi with ⟨u, hu⟩ | hi
    · have := congrArg List.getLast? hu
      rw [List.getLast?_append, List.getLast?_concat, show (str "vyatta-disable").getLast? = some 101 by decide] at this
      simp at this
    · exact hv.no_disable hname hi

end Lines

/-! ## Values -/

/-- A value that is taken from behind its first byte has a space there, and more. -/
def Spaced (p : HeaderName × Str) : Prop :=
  p.1 = .contentType ∨ p.1 = .setCookie → ∃ b t, p.2 = b :: t ∧ isSpace b = true ∧ t ≠ []

/-- Some text differs from a text in more than the space around it. -/
theorem exists_strip_ne (v : Str) : ∃ old, strip old ≠ strip v := by
  by_cases h : strip v = str "x"
  · exact ⟨str "y", by rw [h]; decide⟩
  · exact ⟨str "x", by rw [show strip (str "x") = str "x" by decide]; exact Ne.symm h⟩

theorem zero_notMem_of_strip {u v : Str} (h : strip (cstr u) = strip v) : (0 : UInt8) ∉ v := by
  intro h0
  have hmem := mem_strip_of_mem (by decide) h0
  rw [← h] at hmem
  exact zero_notMem_cstr u (mem_of_mem_strip hmem)

/-- A value taken from behind its first byte. -/
theorem skipped_iff {v : Str} : (∀ old, strip ((if 1 < v.length then some (cstr (v.drop 1)) else none).getD old) = strip v) ↔
    (0 : UInt8) ∉ v ∧ ∃ b t, v = b :: t ∧ isSpace b = true ∧ t ≠ [] := by
  constructor
  · intro h
    by_cases hlen : 1 < v.length
    · simp only [if_pos hlen, Option.getD_some] at h
      have h0 := zero_notMem_of_strip (h [])
      obtain ⟨b, t, rfl⟩ : ∃ b t, v = b :: t := by
        rcases v with _ | ⟨b, t⟩
        · simp at hlen
        · exact ⟨b, t, rfl⟩
      have hstrip := h []
      rw [List.drop_one, List.tail_cons, cstr_of_notMem fun hm => h0 (List.mem_cons_of_mem _ hm)] at hstrip
      refine ⟨h0, b, t, rfl, ?_, fun e => ?_⟩
      · by_contra hb
        have := length_strip_lt (b := b) (by simpa using hb) t
        rw [hstrip] at this
        omega
      · rw [e] at hlen
        simp at hlen
    · simp only [if_neg hlen, Option.getD_none] at h
      obtain ⟨old, hne⟩ := exists_strip_ne v
      exact absurd (h old) hne
  · rintro ⟨h0, b, t, rfl, hb, ht⟩ old
    have hlen : 1 < (b :: t).length := by
      have := List.length_pos_iff.mpr ht
      simp only [List.length_cons]
      omega
    rw [if_pos hlen, Option.getD_some, List.drop_one, List.tail_cons,
      cstr_of_notMem fun hm => h0 (List.mem_cons_of_mem _ hm), strip_cons hb]

/-- A value taken from the colon on. -/
theorem whole_iff {v : Str} (hne : v ≠ []) :
    (∀ old, strip ((if v.isEmpty then none else some (cstr v)).getD old) = strip v) ↔ (0 : UInt8) ∉ v := by
  have hempty : v.isEmpty = false := by simpa using hne
  simp only [hempty, Bool.false_eq_true, if_false, Option.getD_some]
  exact ⟨fun h => zero_notMem_of_strip (h []), fun h0 _ => by rw [cstr_of_notMem h0]⟩

/-- When a line gives its field its value, whatever the field held before. -/
theorem assigned_iff {p : HeaderName × Str} (hne : p.2 ≠ []) :
    (∀ old, strip ((assigned p).getD old) = strip p.2) ↔ (0 : UInt8) ∉ p.2 ∧ Spaced p := by
  obtain ⟨n, t⟩ := p
  cases n with
  | contentType => exact skipped_iff.trans (and_congr_right fun _ => ⟨fun h _ => h, fun h => h (Or.inl rfl)⟩)
  | setCookie => exact skipped_iff.trans (and_congr_right fun _ => ⟨fun h _ => h, fun h => h (Or.inr rfl)⟩)
  | cacheControl => exact (whole_iff hne).trans ⟨fun h => ⟨h, fun e => by simp at e⟩, fun h => h.1⟩
  | contentDisposition => exact (whole_iff hne).trans ⟨fun h => ⟨h, fun e => by simp at e⟩, fun h => h.1⟩

/-! ## The block -/

def separator : Str := str "\x0d\n\n"

theorem tag_separator : Tag separator 13 := ⟨[10, 10], by decide, by decide⟩

section Block

variable {ls : List HeaderLine} (hv : ∀ l ∈ ls, l.Valid)

include hv

theorem tails_plain : ∀ line ∈ (tails ls).map lineText, Plain line := by
  intro line hline
  obtain ⟨p, hp, rfl⟩ := List.mem_map.mp hline
  obtain ⟨l, hl, hs⟩ := line_of_tail hp
  exact lineText_tail_plain hs (hv l hl)

/-- The separator is found where it stands. -/
theorem handleCmdOutput_block (body : Str) (s : Session) : handleCmdOutput (block ls ++ (separator ++ body)) s =
    { s with response := ((strProc (block ls) (str "\n")).foldl (fun r line => override line r) s.response).set .body body } := by
  have hno : ¬ separator <:+: block ls := by
    intro hi
    refine (joined_spread (tails_plain hv)).1 (List.IsInfix.trans ?_ hi)
    exact ⟨[13], [], by decide⟩
  have hfind := find_at_tag tag_separator hno body
  have htake : (block ls ++ (separator ++ body)).take (block ls).length = block ls := List.take_left
  have hdrop : (block ls ++ (separator ++ body)).drop ((block ls).length + 3) = body := by
    rw [← List.drop_drop, List.drop_left]
    rfl
  rw [handleCmdOutput, ← separator, hfind]
  simp only [htake, hdrop]

/-- The lines one by one. -/
theorem honoured_lines (hnodup : (ls.map (·.name)).Nodup) (h2 : ls.length ≠ 2) (body : Str) :
    (∀ s, Honoured ls body s (handleCmdOutput (block ls ++ (separator ++ body)) s)) ↔
      ∀ p ∈ tails ls, (0 : UInt8) ∉ p.2 ∧ Spaced p := by
  have hlines : strProc (block ls) (str "\n") = (tails ls).map lineText :=
    strProc_joined (tails_plain hv) (by rw [List.length_map, length_tails]; exact h2)
  have hnames : ((tails ls).map (·.1)).Nodup := by rwa [tails_names]
  have hkeep : ∀ p ∈ tails ls, KeepsCache p := by
    intro p hp
    obtain ⟨l, hl, hs⟩ := line_of_tail hp
    exact keepsCache_tail hs (hv l hl)
  have hbody : ∀ n : HeaderName, n.key ≠ .body := by
    intro n
    cases n <;> decide
  have hget : ∀ (s : Session) (p : HeaderName × Str), p ∈ tails ls →
      (handleCmdOutput (block ls ++ (separator ++ body)) s).response.get p.1.key =
        (assigned p).getD (s.response.get p.1.key) := by
    intro s p hp
    rw [handleCmdOutput_block hv, hlines, get_set, if_neg (hbody _)]
    exact overrides_own (tails ls) s.response hnames hkeep p hp
  constructor
  · intro h p hp
    obtain ⟨l, hl, hs⟩ := line_of_tail hp
    refine (assigned_iff (tail_ne_nil hs (hv l hl))).mp fun old => ?_
    have hnamed := (h { Session.new with response := Http.empty.set p.1.key old }).named l hl
    rw [← hs.1, hget _ p hp, ← strip_tail hs] at hnamed
    rwa [get_set, if_pos rfl] at hnamed
  · intro h s
    refine ⟨fun l hl => ?_, ?_, fun k hk hother => ?_⟩
    · obtain ⟨p, hp, hs⟩ := tail_of_line hl
      have hvalue := (assigned_iff (tail_ne_nil hs (hv l hl))).mpr (h p hp) (s.response.get p.1.key)
      rw [← hs.1, hget s p hp, hvalue, strip_tail hs]
    · rw [handleCmdOutput_block hv, get_set, if_pos rfl]
    · rw [handleCmdOutput_block hv, hlines, get_set, if_neg hk]
      refine overrides_other (tails ls) s.response fun p hp => ?_
      obtain ⟨l, hl, hs⟩ := line_of_tail hp
      rw [hs.1]
      exact hother l hl

/-- The second of two lines is part of the first one's value. -/
theorem not_honoured_pair {l l' : HeaderLine} (hls : ls = [l, l']) (hne : l.name ≠ l'.name) (body : Str) :
    ¬ ∀ s, Honoured ls body s (handleCmdOutput (block ls ++ (separator ++ body)) s) := by
  intro h
  obtain ⟨old, hold⟩ := exists_strip_ne l'.value
  have hl' : l' ∈ ls := by simp [hls]
  have hbody : l'.name.key ≠ .body := by cases l'.name <;> decide
  have hnamed := (h { Session.new with response := Http.empty.set l'.name.key old }).named l' hl'
  have hfirst := lineText_tail_plain (shows_first l) (hv l (by simp [hls]))
  have hsecond := lineText_tail_plain (p := (l'.name, l'.value)) ⟨rfl, Or.inl rfl⟩ (hv l' hl')
  have hmerged : ∀ (p : HeaderName × Str) (t : Str), lineText p ++ t = lineText (p.1, p.2 ++ t) := fun p t =>
    List.append_assoc _ _ _
  have hblock : block ls = (str "\n").intercalate
      [lineText (l.name, l.value ++ if l.crlf then str "\x0d" else []), lineText (l'.name, l'.value)] := by
    rw [hls]
    rfl
  rw [handleCmdOutput_block hv, hblock, strProc_pair hfirst hsecond, get_set, if_neg hbody, hmerged, List.foldl_cons,
    List.foldl_nil, override_other _ _ fun e => hne (key_injective e).symm, get_set, if_pos rfl] at hnamed
  exact hold hnamed

end Block

/-- Whatever the response held before. -/
theorem headers_exact_iff {ls : List HeaderLine} (hnodup : (ls.map (·.name)).Nodup) (hv : ∀ l ∈ ls, l.Valid) (body : Str) :
    (∀ s, Honoured ls body s (handleCmdOutput (block ls ++ (separator ++ body)) s)) ↔
      ls.length ≠ 2 ∧ ∀ p ∈ tails ls, (0 : UInt8) ∉ p.2 ∧ Spaced p := by
  by_cases h2 : ls.length = 2
  · obtain ⟨l, l', rfl⟩ := List.length_eq_two.mp h2
    refine iff_of_false (not_honoured_pair hv rfl ?_ body) fun h => h.1 h2
    simpa using hnodup
  · exact (honoured_lines hv hnodup h2 body).trans ⟨fun h => ⟨h2, h⟩, fun h => h.2⟩

def htmlLine : HeaderLine := ⟨.contentType, str " text/html", true⟩
def cookieLine : HeaderLine := ⟨.setCookie, str " id=1", true⟩
def cacheLine : HeaderLine := ⟨.cacheControl, str "no-store", false⟩

theorem htmlLine_valid : htmlLine.Valid := ⟨by decide, by decide, by decide, by decide, by decide, nofun⟩
theorem cookieLine_valid : cookieLine.Valid := ⟨by decide, by decide, by decide, by decide, by decide, nofun⟩

theorem cacheLine_valid : cacheLine.Valid := by
  refine ⟨by decide, by decide, by decide, by decide, by decide, fun _ => ?_⟩
  rw [← find_eq_none_iff]
  decide

theorem three_headers_are_honoured : (∀ l ∈ [htmlLine, cookieLine, cacheLine], l.Valid) ∧
    ∀ s, Honoured [htmlLine, cookieLine, cacheLine] (str "<p>") s
      (handleCmdOutput (block [htmlLine, cookieLine, cacheLine] ++ (separator ++ str "<p>")) s) := by
  have hvalid : ∀ l ∈ [htmlLine, cookieLine, cacheLine], l.Valid := by
    intro l hl
    simp only [List.mem_cons, List.not_mem_nil, or_false] at hl
    rcases hl with rfl | rfl | rfl
    · exact htmlLine_valid
    · exact cookieLine_valid
    · exact cacheLine_valid
  refine ⟨hvalid, (headers_exact_iff (by decide) hvalid (str "<p>")).mpr ⟨by decide, fun p hp => ?_⟩⟩
  simp only [tails, List.mem_cons, List.not_mem_nil, or_false] at hp
  rcases hp with rfl | rfl | rfl
  · exact ⟨by decide, fun _ => ⟨32, str "text/html\x0d", by decide, by decide, by decide⟩⟩
  · exact ⟨by decide, fun _ => ⟨32, str "id=1\x0d", by decide, by decide, by decide⟩⟩
  · exact ⟨by decide, fun h => by simp [cacheLine] at h⟩

/-- The cookie becomes part of the content type. -/
theorem two_headers_are_read_as_one :
    [htmlLine, cookieLine] ≠ [] ∧ ([htmlLine, cookieLine].map (·.name)).Nodup ∧ (∀ l ∈ [htmlLine, cookieLine], l.Valid) ∧
      (let s := handleCmdOutput (block [htmlLine, cookieLine] ++ (separator ++ str "<p>")) Session.new
       s.response.get .respContentType = str "text/html\x0dSet-Cookie: id=1" ∧ s.response.get .respCookie = [] ∧
        ¬ Honoured [htmlLine, cookieLine] (str "<p>") Session.new s) := by
  have hcookie : (handleCmdOutput (block [htmlLine, cookieLine] ++ (separator ++ str "<p>")) Session.new).response.get
      .respCookie = [] := by decide
  refine ⟨by simp, by decide, fun l hl => ?_, by decide, hcookie, fun h => ?_⟩
  · simp only [List.mem_cons, List.not_mem_nil, or_false] at hl
    rcases hl with rfl | rfl
    · exact htmlLine_valid
    · exact cookieLine_valid
  · have hnamed := h.named cookieLine (by simp)
    rw [show cookieLine.name.key = .respCookie from rfl, hcookie] at hnamed
    exact absurd hnamed (by decide)

end VyattaRest.Server.Mode
