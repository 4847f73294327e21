/-
  VyattaRest.RestClient — the Perl client's way from a command to a URL path
  (`_cmd_2_path`, lib/Vyatta/RestClient.pm), and the whole way from there to the argument
  vector of `opc`.

  The client cuts a quoted value off the end of the command with a regular expression,
  splits the rest at white space, percent-encodes every piece and joins them with `/`.
  The server decodes and quotes the pieces again (`Rest.translateRestToCli`), the chunker
  takes the quoted line apart (`Chunker.tokenizeOpCmd`).

  `uri_escape` leaves the unreserved characters alone; its older versions also left
  `!*'()` alone, so the set it leaves alone is a parameter between the two (`EscapeSet`).
  - `cmd2path_line`: for a well-formed command (`Command.WellFormed`) the server's line is
    the first word and the quoted other elements.
  - `command_becomes_argv`: the three steps together give back the words of the command,
    and the last step ends for every path.
-/

import VyattaRest.Chunker.Tokenize

namespace VyattaRest.RestClient

open VyattaRest.Lib VyattaRest.Rest VyattaRest.Chunker

/-! ## The client -/

/-- `split(' ', s)`: no empty fields, none at the front. -/
def splitWords (s : Str) : List Str := (s.splitOnP isSpace).filter (· ≠ [])

/-- `/^(.*)(q.*q)$/`: `.` stops at a newline, `$` stands before a last one, and the first
    group takes as much as it can, so the second one starts at the last quote but one. -/
def leafMatch (q : UInt8) (cmd : Str) : Option (Str × Str) :=
  let line := if cmd.getLast? = some 10 then cmd.dropLast else cmd
  if (10 : UInt8) ∈ line ∨ line.getLast? ≠ some q ∨ q ∉ line.dropLast then none
  else
    let i := line.dropLast.length - (line.dropLast.reverse.takeWhile (· ≠ q)).length - 1
    some (line.take i, line.drop i)

/-- `uri_escape`, then `s/\'/%27/g`. -/
def escapeToken (safe : UInt8 → Bool) (token : Str) : Str :=
  (percentEncode safe token).flatMap fun b => if b = 39 then str "%27" else [b]

/-- `_cmd_2_path`. -/
def cmd2path (safe : UInt8 → Bool) (cmd : Str) : Str :=
  let tokens := match leafMatch 39 cmd with
    | some (path, leaf) => splitWords path ++ [leaf]
    | none => match leafMatch 34 cmd with
      | some (path, leaf) => splitWords path ++ [leaf]
      | none => splitWords cmd
  [47].intercalate (tokens.map (escapeToken safe))

/-! ## Commands -/

def isUnreserved (b : UInt8) : Bool :=
  (65 ≤ b && b ≤ 90) || (97 ≤ b && b ≤ 122) || (48 ≤ b && b ≤ 57) || b == 45 || b == 46 || b == 95 || b == 126

/-- The characters `uri_escape` leaves alone, in any of its versions. -/
structure EscapeSet (safe : UInt8 → Bool) : Prop where
  unreserved : ∀ b, isUnreserved b = true → safe b = true
  others : ∀ b, safe b = true → isUnreserved b = true ∨ b ∈ str "!*'()"

/-- A plain word. -/
def IsWord (w : Str) : Prop :=
  w ≠ [] ∧ (∀ b ∈ w, isSpace b = false) ∧ (39 : UInt8) ∉ w ∧ (34 : UInt8) ∉ w ∧ (0 : UInt8) ∉ w

/-- The last element of a command: a word, or a value in quotes. -/
inductive Last where
  | word (w : Str)
  | single (v : Str)
  | double (v : Str)

def Last.value : Last → Str
  | .word w => w
  | .single v => v
  | .double v => v

def Last.text : Last → Str
  | .word w => w
  | .single v => [39] ++ v ++ [39]
  | .double v => [34] ++ v ++ [34]

def Last.WellFormed : Last → Prop
  | .word w => IsWord w
  | .single v | .double v => v ≠ [] ∧ (39 : UInt8) ∉ v ∧ (34 : UInt8) ∉ v ∧ (0 : UInt8) ∉ v ∧ (10 : UInt8) ∉ v

/-- A command of at least two elements. -/
structure Command where
  first : Str
  middle : List Str
  last : Last

def Command.text (c : Command) : Str := [32].intercalate (c.first :: c.middle ++ [c.last.text])

/-- Its words, the quoted value without its quotes. -/
def Command.words (c : Command) : List Str := c.first :: c.middle ++ [c.last.value]

structure Command.WellFormed (c : Command) : Prop where
  first_ne_nil : c.first ≠ []
  first_unreserved : ∀ b ∈ c.first, isUnreserved b = true
  middle_words : ∀ w ∈ c.middle, IsWord w
  last_wellFormed : c.last.WellFormed

/-! ## Splitting -/

theorem splitWords_nil : splitWords [] = [] := rfl

theorem splitWords_word {w : Str} (hw : IsWord w) : splitWords w = [w] := by
  rw [splitWords, List.splitOnP_eq_singleton hw.2.1]
  simp [hw.1]

theorem splitWords_cons {w : Str} (hw : IsWord w) (r : Str) : splitWords (w ++ 32 :: r) = w :: splitWords r := by
  rw [splitWords, List.splitOnP_append_cons_of_forall_mem hw.2.1 32 rfl, List.filter_cons_of_pos (by simpa using hw.1)]
  rfl

/-- Words with single spaces between them, and perhaps one more behind them. -/
theorem splitWords_words : ∀ (w : Str) (ws : List Str), (∀ x ∈ w :: ws, IsWord x) → ∀ t, t = [] ∨ t = [32] →
    splitWords ([32].intercalate (w :: ws) ++ t) = w :: ws := by
  intro w ws
  induction ws generalizing w with
  | nil =>
    intro h t ht
    have hw := h w List.mem_cons_self
    rcases ht with rfl | rfl
    · simpa using splitWords_word hw
    · simpa [splitWords_nil] using splitWords_cons hw []
  | cons x xs ih =>
    intro h t ht
    have hrest := ih x (fun y hy => h y (List.mem_cons_of_mem _ hy)) t ht
    rw [List.intercalate_cons_cons, List.append_assoc, List.append_assoc, List.singleton_append,
      splitWords_cons (h w List.mem_cons_self), hrest]

theorem intercalate_append_singleton (x : Str) : ∀ (w : Str) (ws : List Str),
    [32].intercalate (w :: ws ++ [x]) = [32].intercalate (w :: ws) ++ 32 :: x := by
  intro w ws
  induction ws generalizing w with
  | nil => simp
  | cons y ys ih =>
    have := ih y
    rw [List.cons_append] at this ⊢
    rw [List.cons_append, List.intercalate_cons_cons, this, List.intercalate_cons_cons]
    simp

theorem leafMatch_none {q : UInt8} {cmd : Str} (h : q ∉ cmd) : leafMatch q cmd = none := by
  rw [leafMatch, if_pos]
  refine Or.inr (Or.inr fun hm => h ?_)
  have hm := List.mem_of_mem_dropLast hm
  split at hm
  · exact List.mem_of_mem_dropLast hm
  · exact hm

theorem leafMatch_quoted {q : UInt8} (hq : q ≠ 10) {p v : Str} (hv : q ∉ v) (hn : (10 : UInt8) ∉ p ++ v) :
    leafMatch q (p ++ ([q] ++ v ++ [q])) = some (p, [q] ++ v ++ [q]) := by
  have hlast : (p ++ ([q] ++ v ++ [q])).getLast? = some q := by
    rw [← List.append_assoc, List.getLast?_concat]
  have hdrop : (p ++ ([q] ++ v ++ [q])).dropLast = p ++ q :: v := by
    rw [← List.append_assoc, List.dropLast_concat]; simp
  have hinner : (p ++ q :: v).reverse.takeWhile (· ≠ q) = v.reverse := by
    rw [List.reverse_append, List.reverse_cons, List.append_assoc, List.takeWhile_append_of_pos]
    · simp
    · intro b hb
      simpa using fun e : b = q => hv (e ▸ List.mem_reverse.mp hb)
  have hline : (if (p ++ ([q] ++ v ++ [q])).getLast? = some 10 then (p ++ ([q] ++ v ++ [q])).dropLast
      else p ++ ([q] ++ v ++ [q])) = p ++ ([q] ++ v ++ [q]) := by
    rw [hlast, if_neg (by simpa using hq)]
  rw [leafMatch, hline]
  simp only [hdrop, hlast, hinner]
  rw [if_neg]
  · rw [show (p ++ q :: v).length - v.reverse.length - 1 = p.length by simp; omega]
    simp
  · simp only [List.mem_append] at hn
    simp [Ne.symm hq]
    tauto

/-! ## Encoding -/

/-- The two substitutions together encode everything `uri_escape` does, and the quote. -/
theorem escapeToken_eq (safe : UInt8 → Bool) (t : Str) :
    escapeToken safe t = percentEncode (fun b => safe b && b != 39) t := by
  have hd : ∀ n < 16, hexDigit n ≠ 39 := by decide
  rw [escapeToken, percentEncode, percentEncode, List.flatMap_assoc]
  refine List.flatMap_congr fun b _ => ?_
  have hlt := b.toNat_lt
  by_cases hs : safe b = true
  · by_cases hb : b = 39
    · subst hb; simp [hs]; decide
    · simp [hs, hb]
  · simp [hs, hd (b.toNat / 16) (by omega), hd (b.toNat % 16) (by omega)]

variable {safe : UInt8 → Bool} (hsafe : EscapeSet safe)

include hsafe

theorem unescape_escapeToken {t : Str} (h0 : (0 : UInt8) ∉ t) : unescape (escapeToken safe t) = t := by
  have h37 : (safe 37 && (37 : UInt8) != 39) = false := by
    by_contra hc
    have := hsafe.others 37 (by simpa using hc)
    revert this; decide
  rw [escapeToken_eq, unescape, percentDecode_encode h37, cstr_of_notMem h0]

theorem slash_notMem_escapeToken (t : Str) : (47 : UInt8) ∉ escapeToken safe t := by
  rw [escapeToken_eq]
  intro hm
  rcases mem_percentEncode hm with ⟨h, -⟩ | h | h
  · rw [Bool.and_eq_true] at h
    have := hsafe.others 47 h.1
    revert this; decide
  · revert h; decide
  · revert h; decide

theorem escapeToken_unreserved {t : Str} (ht : ∀ b ∈ t, isUnreserved b = true) : escapeToken safe t = t := by
  rw [escapeToken_eq]
  refine percentEncode_of_all fun b hb => ?_
  have hne : b ≠ 39 := by
    intro e
    have := ht b hb
    rw [e] at this
    revert this; decide
  simp [hsafe.unreserved b (ht b hb), hne]

omit hsafe

theorem Last.WellFormed.quotes {l : Last} (h : l.WellFormed) :
    l.value ≠ [] ∧ (39 : UInt8) ∉ l.value ∧ (34 : UInt8) ∉ l.value ∧ (0 : UInt8) ∉ l.value := by
  cases l with
  | word w => exact ⟨h.1, h.2.2.1, h.2.2.2.1, h.2.2.2.2⟩
  | single v => exact ⟨h.1, h.2.1, h.2.2.1, h.2.2.2.1⟩
  | double v => exact ⟨h.1, h.2.1, h.2.2.1, h.2.2.2.1⟩

theorem quoteToken_word {w : Str} (h1 : (39 : UInt8) ∉ w) (h2 : (34 : UInt8) ∉ w) : quoteToken w = quoted w := by
  have hhead : ∀ b : UInt8, b ∉ w → w.head? ≠ some b := fun b hb h => hb (List.mem_of_head? h)
  rw [quoteToken, if_neg fun h => hhead 39 h1 h.1, if_neg fun h => hhead 34 h2 h.1, quoted]

/-- However the last element is written, the server writes it in single quotes. -/
theorem quoteToken_last {l : Last} (h : l.WellFormed) : quoteToken l.text = quoted l.value := by
  obtain ⟨-, h1, h2, -⟩ := h.quotes
  cases l with
  | word w => exact quoteToken_word h1 h2
  | single v =>
    rw [Last.text, quoteToken, if_pos ⟨rfl, List.getLast?_concat⟩]
    rfl
  | double v =>
    rw [Last.text, quoteToken, if_neg (by simp), if_pos ⟨rfl, List.getLast?_concat⟩]
    simp [substr, quoted, Last.value]

/-! ## The way of a command -/

theorem isSpace_unreserved {b : UInt8} (h : isUnreserved b = true) : isSpace b = false := by
  simp only [isUnreserved, Bool.or_eq_true, Bool.and_eq_true, decide_eq_true_eq, beq_iff_eq, UInt8.le_iff_toNat_le,
    ← UInt8.toNat_inj] at h
  simp only [isSpace, Bool.or_eq_false_iff, Bool.and_eq_false_iff, decide_eq_false_iff_not, beq_eq_false_iff_ne, ne_eq,
    UInt8.le_iff_toNat_le, ← UInt8.toNat_inj]
  simp only [UInt8.reduceToNat] at h ⊢
  omega

namespace Command

variable {c : Command}

theorem WellFormed.first_word (h : c.WellFormed) : IsWord c.first := by
  refine ⟨h.first_ne_nil, fun b hb => isSpace_unreserved (h.first_unreserved b hb), fun hm => ?_, fun hm => ?_,
    fun hm => ?_⟩
  all_goals exact absurd (h.first_unreserved _ hm) (by decide)

theorem WellFormed.words (h : c.WellFormed) : ∀ w ∈ c.first :: c.middle, IsWord w := by
  intro w hw
  rcases List.mem_cons.mp hw with rfl | hw
  · exact h.first_word
  · exact h.middle_words w hw

/-- The words before the last element hold no quote and no newline. -/
theorem WellFormed.plain (h : c.WellFormed) : (39 : UInt8) ∉ [32].intercalate (c.first :: c.middle) ∧
    (34 : UInt8) ∉ [32].intercalate (c.first :: c.middle) ∧ (10 : UInt8) ∉ [32].intercalate (c.first :: c.middle) := by
  have key : ∀ b : UInt8, b ≠ 32 → (∀ w, IsWord w → b ∉ w) → b ∉ [32].intercalate (c.first :: c.middle) := by
    intro b hb hw hm
    rcases mem_intercalate hm with e | ⟨w, hmem, hbw⟩
    · exact hb (List.mem_singleton.mp e)
    · exact hw w (h.words w hmem) hbw
  exact ⟨key 39 (by decide) fun w hw => hw.2.2.1, key 34 (by decide) fun w hw => hw.2.2.2.1,
    key 10 (by decide) fun w hw hm => absurd (hw.2.1 10 hm) (by decide)⟩

theorem text_eq (c : Command) : c.text = ([32].intercalate (c.first :: c.middle) ++ [32]) ++ c.last.text := by
  rw [text, intercalate_append_singleton]; simp

/-- The client finds the elements of the command, the quoted one with its quotes. -/
theorem cmd2path_text (h : c.WellFormed) :
    cmd2path safe c.text = [47].intercalate ((c.first :: c.middle ++ [c.last.text]).map (escapeToken safe)) := by
  obtain ⟨p39, p34, p10⟩ := h.plain
  have hwords := splitWords_words c.first c.middle h.words [32] (Or.inr rfl)
  have hlast := h.last_wellFormed
  obtain ⟨-, v39, v34, -⟩ := hlast.quotes
  unfold cmd2path
  rcases hl : c.last with w | v | v <;> rw [hl] at hlast v39 v34
  · -- No quote anywhere: neither expression matches.
    have hall : ∀ b : UInt8, b ≠ 32 → b ∉ [32].intercalate (c.first :: c.middle) → b ∉ w → b ∉ c.text := by
      intro b hb h1 h2 hm
      rw [text_eq, hl, List.mem_append, List.mem_append, List.mem_singleton] at hm
      tauto
    rw [leafMatch_none (hall 39 (by decide) p39 v39), leafMatch_none (hall 34 (by decide) p34 v34)]
    have hsplit := splitWords_words c.first (c.middle ++ [w]) (fun x hx => by
      rw [← List.cons_append, List.mem_append, List.mem_singleton] at hx
      rcases hx with hx | rfl
      · exact h.words x hx
      · exact hlast) [] (Or.inl rfl)
    rw [List.append_nil, ← List.cons_append] at hsplit
    simp only [text, hl, Last.text, hsplit]
  · have hm := leafMatch_quoted (q := 39) (p := [32].intercalate (c.first :: c.middle) ++ [32]) (v := v) (by decide) v39
      (by simp only [List.mem_append, List.mem_singleton, not_or]; exact ⟨⟨p10, by decide⟩, hlast.2.2.2.2⟩)
    rw [text_eq, hl, Last.text, hm]
    simp only [hwords]
  · have hm := leafMatch_quoted (q := 34) (p := [32].intercalate (c.first :: c.middle) ++ [32]) (v := v) (by decide) v34
      (by simp only [List.mem_append, List.mem_singleton, not_or]; exact ⟨⟨p10, by decide⟩, hlast.2.2.2.2⟩)
    rw [text_eq, hl, Last.text, hm, leafMatch_none (q := 39)]
    · simp only [hwords]
    · simp only [List.mem_append, List.mem_singleton, not_or]
      exact ⟨⟨p39, by decide⟩, ⟨by decide, v39⟩, by decide⟩

end Command

include hsafe

/-- The server's line is the first word and the other elements in single quotes. -/
theorem cmd2path_line {c : Command} (h : c.WellFormed) : translateRestToCli (cmd2path safe c.text) =
    c.first ++ ((c.middle ++ [c.last.value]).map quoted).flatten := by
  have hfirst : escapeToken safe c.first = c.first := escapeToken_unreserved hsafe h.first_unreserved
  have hseg : segments ([47].intercalate ((c.first :: c.middle ++ [c.last.text]).map (escapeToken safe))) =
      c.first :: (c.middle ++ [c.last.text]).map (escapeToken safe) := by
    rw [List.cons_append, List.map_cons, hfirst]
    refine segments_intercalate h.first_ne_nil fun l hl => ?_
    rcases List.mem_cons.mp hl with rfl | hl
    · rw [← hfirst]; exact slash_notMem_escapeToken hsafe _
    · obtain ⟨t, -, rfl⟩ := List.mem_map.mp hl
      exact slash_notMem_escapeToken hsafe t
  have hmiddle : ∀ w ∈ c.middle, quoteToken (unescape (escapeToken safe w)) = quoted w := by
    intro w hw
    have := h.middle_words w hw
    rw [unescape_escapeToken hsafe this.2.2.2.2]
    exact quoteToken_word this.2.2.1 this.2.2.2.1
  have hlast : quoteToken (unescape (escapeToken safe c.last.text)) = quoted c.last.value := by
    have h0 : (0 : UInt8) ∉ c.last.text := by
      have := h.last_wellFormed.quotes.2.2.2
      cases hl : c.last <;> rw [hl] at this <;> simpa [Last.text, Last.value] using this
    rw [unescape_escapeToken hsafe h0]
    exact quoteToken_last h.last_wellFormed
  rw [Command.cmd2path_text h, translateRestToCli_eq, hseg]
  rcases hm : c.middle with _ | ⟨w, ws⟩
  · simp [hlast]
  · rw [hm] at hmiddle
    simp only [List.cons_append, List.map_cons, List.map_append, List.map_nil, List.flatten_cons, List.flatten_append,
      Function.comp, List.map_map, hlast, hmiddle w List.mem_cons_self]
    rw [List.map_congr_left (f := (quoteToken ∘ unescape) ∘ escapeToken safe) (g := quoted)
      fun x hx => hmiddle x (List.mem_cons_of_mem _ hx)]

/-- A well-formed command arrives as its words, and the tokenizer ends on the line of
    every path. -/
theorem command_becomes_argv :
    (∀ c : Command, c.WellFormed →
      ∃ n, ∀ fuel ≥ n, tokenizeOpCmd fuel (translateRestToCli (cmd2path safe c.text)) = some c.words) ∧
    ∀ path : Str, ∃ ws n, ∀ fuel ≥ n, tokenizeOpCmd fuel (translateRestToCli path) = some ws := by
  constructor
  · intro c h
    have hfirst := h.first_word
    refine ⟨2 * (c.middle ++ [c.last.value]).length + 1, fun fuel hfuel => ?_⟩
    rw [cmd2path_line hsafe h, tokenizeOpCmd_line ⟨hfirst.1, hfirst.2.2.1, hfirst.2.2.2.2⟩
      (fun hm => absurd (hfirst.2.1 32 hm) (by decide)) (by simp) ?_ hfuel]
    · rfl
    · intro v hv
      rcases List.mem_append.mp hv with hv | hv
      · have := h.middle_words v hv
        exact ⟨this.1, this.2.2.1, this.2.2.2.2⟩
      · obtain ⟨h1, h2, -, h3⟩ := h.last_wellFormed.quotes
        rw [List.mem_singleton] at hv
        subst hv
        exact ⟨h1, h2, h3⟩
  · intro path
    obtain ⟨ws, hws⟩ := tokenizeOpCmd_terminates (translate_ends_quoted path)
    exact ⟨ws, _, hws⟩

omit hsafe

/-- A command with a quoted description of two words. -/
theorem a_description_stays_one_argument : ∃ n, ∀ fuel ≥ n, tokenizeOpCmd fuel (translateRestToCli
    (cmd2path isUnreserved (str "set interfaces ethernet eth2 description 'to 9.9.9.9/24'"))) =
      some [str "set", str "interfaces", str "ethernet", str "eth2", str "description", str "to 9.9.9.9/24"] := by
  refine (command_becomes_argv ⟨fun _ h => h, fun _ h => Or.inl h⟩).1
    ⟨str "set", [str "interfaces", str "ethernet", str "eth2", str "description"], .single (str "to 9.9.9.9/24")⟩
    ⟨by decide, by decide, ?_, ?_⟩
  · unfold IsWord; decide
  · unfold Last.WellFormed; decide

end VyattaRest.RestClient
