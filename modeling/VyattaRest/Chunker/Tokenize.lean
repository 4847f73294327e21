/-
  VyattaRest.Chunker.Tokenize — `ChunkerProcessor::tokenizeOpCmd` (chunker2_processor.cc):
  the CLI line of an operational command taken apart into the argument vector of `opc`.

  The source is a `while(true)` over an index. Each round looks for the next space and the
  next quote from the index on. When an opening quote stands at the index and has no
  partner, `quote_close + 1` is `npos + 1`, the index goes back to 0 and the loop starts
  over on the same line: the line `show 'a b` is never finished (`tokenizeOpCmd_ends_iff`
  says which lines are). The loop has no bound of its own, so it is modelled with fuel.

  `translateRestToCli` never hands it such a line: what it returns is empty or ends in a
  quote (`Rest.translate_ends_quoted`), so while a space remains a quote remains after it.
  - `tokenizeOpCmd_terminates`: every line that is empty or ends in a quote is finished,
    within as many rounds as it has bytes and one more.
  - `tokenizeOpCmd_line`: a first word and quoted values give back the word and the values.
-/

import VyattaRest.Common

namespace VyattaRest.Chunker

open VyattaRest.Lib VyattaRest.Rest

/-- The value after an opening quote at `quoteOpen`, and the index behind its closing
    quote. Without one the count runs past the end and the index wraps to 0. -/
def quotedAt (opmodecmd : Str) (quoteOpen : Nat) : Str × Nat :=
  match findFrom (str "'") opmodecmd (quoteOpen + 1) with
  | some quoteClose => (substr opmodecmd (quoteOpen + 1) (quoteClose - quoteOpen - 1), quoteClose + 1)
  | none => (opmodecmd.drop (quoteOpen + 1), 0)

/-- The rounds of the loop from `strloc`, with the arguments pushed so far. -/
def tokenizeLoop (opmodecmd : Str) : Nat → Nat → List Str → Option (List Str)
  | 0, _, _ => none
  | fuel + 1, strloc, opcmdarr =>
    let quoteOpen := findFrom (str "'") opmodecmd strloc
    match findFrom (str " ") opmodecmd strloc with
    | none =>
      let value := if quoteOpen = some strloc then (quotedAt opmodecmd strloc).1
        else substr opmodecmd strloc (opmodecmd.length - strloc + 1)
      some (if value ≠ [] ∧ value ≠ str "''" then opcmdarr ++ [cstr value] else opcmdarr)
    | some seploc =>
      if quoteOpen = some strloc then
        tokenizeLoop opmodecmd fuel (quotedAt opmodecmd strloc).2 (opcmdarr ++ [cstr (quotedAt opmodecmd strloc).1])
      else
        let value := substr opmodecmd strloc (seploc - strloc)
        tokenizeLoop opmodecmd fuel (seploc + 1) (if value ≠ [] then opcmdarr ++ [cstr value] else opcmdarr)

/-- `tokenizeOpCmd` within `fuel` rounds. -/
def tokenizeOpCmd (fuel : Nat) (opmodecmd : Str) : Option (List Str) := tokenizeLoop opmodecmd fuel 0 []

/-! ## Searching from an index -/

theorem quote_eq : str "'" = [39] := by decide
theorem space_eq : str " " = [32] := by decide

theorem findFrom_append (pat : Str) (p s : Str) :
    findFrom pat (p ++ s) p.length = (find pat s).map (· + p.length) := by
  simp [findFrom]

/-- A byte found from an index stands there, at or after the index. -/
theorem findFrom_byte {b : UInt8} {s : Str} {i j : Nat} (h : findFrom [b] s i = some j) : i ≤ j ∧ s[j]? = some b := by
  unfold findFrom at h
  split at h
  · obtain ⟨k, hk, rfl⟩ := Option.map_eq_some_iff.mp h
    obtain ⟨x, y, hxy, rfl⟩ := find_split hk
    refine ⟨by omega, ?_⟩
    rw [Nat.add_comm, ← List.getElem?_drop, hxy]
    simp
  · cases h

theorem find_singleton_none {b : UInt8} {s : Str} (h : find [b] s = none) : b ∉ s := by
  intro hm
  obtain ⟨x, y, rfl⟩ := List.append_of_mem hm
  exact find_eq_none_iff.mp h ⟨x, y, by simp⟩

theorem find_singleton {b : UInt8} {u : Str} (hu : b ∉ u) (s : Str) : find [b] (u ++ b :: s) = some u.length := by
  have htag : Tag [b] b := ⟨[], rfl, by simp⟩
  rw [find_skip htag hu (b :: s)]
  simp [find]

/-- A line that ends in a quote has one at or after every index inside it. -/
theorem findFrom_quote_isSome {s : Str} (hs : s.getLast? = some 39) {i : Nat} (hi : i < s.length) :
    (findFrom (str "'") s i).isSome = true := by
  rw [findFrom, if_pos (by omega), Option.isSome_map]
  by_contra hc
  rw [Bool.not_eq_true, Option.isSome_eq_false_iff, Option.isNone_iff_eq_none] at hc
  have hmem : (39 : UInt8) ∈ s.drop i := by
    refine List.mem_of_getLast? ?_
    rw [List.getLast?_drop, if_neg (by omega), hs]
  exact find_singleton_none hc hmem

/-! ## Termination -/

/-- A round that does not finish the line moves the index on and keeps it in the line:
    where a space follows an opening quote, so does a closing one. -/
theorem tokenizeLoop_round {s : Str} (hs : s.getLast? = some 39) {strloc seploc : Nat}
    (hsep : findFrom (str " ") s strloc = some seploc) (acc : List Str) :
    ∃ strloc' acc', strloc < strloc' ∧ strloc' ≤ s.length ∧
      ∀ fuel, tokenizeLoop s (fuel + 1) strloc acc = tokenizeLoop s fuel strloc' acc' := by
  obtain ⟨hle, hspace⟩ := findFrom_byte (b := 32) hsep
  have hlt : seploc < s.length := (List.getElem?_eq_some_iff.mp hspace).1
  by_cases hq : findFrom (str "'") s strloc = some strloc
  · have hquote := (findFrom_byte (b := 39) hq).2
    have hne : strloc ≠ seploc := by
      intro e
      rw [e, hspace] at hquote
      cases hquote
    obtain ⟨quoteClose, hclose⟩ := Option.isSome_iff_exists.mp
      (findFrom_quote_isSome hs (i := strloc + 1) (by omega))
    obtain ⟨h1, h2⟩ := findFrom_byte (b := 39) hclose
    refine ⟨quoteClose + 1, acc ++ [cstr (quotedAt s strloc).1], by omega, ?_, fun fuel => ?_⟩
    · exact (List.getElem?_eq_some_iff.mp h2).1
    · rw [tokenizeLoop, hsep]
      simp only [hq, if_true, quotedAt, hclose]
  · refine ⟨seploc + 1, if substr s strloc (seploc - strloc) ≠ [] then
      acc ++ [cstr (substr s strloc (seploc - strloc))] else acc, by omega, by omega, fun fuel => ?_⟩
    rw [tokenizeLoop, hsep]
    simp only [hq, if_false]

theorem tokenizeLoop_finishes {s : Str} (hs : s = [] ∨ s.getLast? = some 39) : ∀ (n strloc : Nat) (acc : List Str),
    strloc ≤ s.length → s.length - strloc < n →
    ∃ ws, ∀ fuel ≥ n, tokenizeLoop s fuel strloc acc = some ws := by
  intro n
  induction n with
  | zero => intro strloc acc _ h; omega
  | succ n ih =>
    intro strloc acc hle hn
    rcases hsep : findFrom (str " ") s strloc with _ | seploc
    · obtain ⟨ws, hws⟩ : ∃ ws, ∀ fuel, tokenizeLoop s (fuel + 1) strloc acc = some ws :=
        ⟨_, fun fuel => by rw [tokenizeLoop, hsep]⟩
      refine ⟨ws, fun fuel hf => ?_⟩
      rw [show fuel = fuel - 1 + 1 by omega]
      exact hws _
    · have hend : s.getLast? = some 39 := by
        refine hs.resolve_left fun e => ?_
        have := (findFrom_byte (b := 32) hsep).2
        rw [e] at this
        cases this
      obtain ⟨strloc', acc', h1, h2, hround⟩ := tokenizeLoop_round hend hsep acc
      obtain ⟨ws, hws⟩ := ih strloc' acc' h2 (by omega)
      refine ⟨ws, fun fuel hf => ?_⟩
      rw [show fuel = fuel - 1 + 1 by omega, hround]
      exact hws _ (by omega)

theorem tokenizeOpCmd_terminates {s : Str} (hs : s = [] ∨ s.getLast? = some 39) :
    ∃ ws, ∀ fuel ≥ s.length + 1, tokenizeOpCmd fuel s = some ws :=
  tokenizeLoop_finishes hs (s.length + 1) 0 [] (Nat.zero_le _) (by omega)

/-! ## Lines of quoted values -/

/-- What the translator writes for a value without quotes. -/
def quoted (v : Str) : Str := str " '" ++ v ++ str "'"

/-- A value the tokenizer gives back: not empty, without a quote or a NUL. -/
def IsValue (v : Str) : Prop := v ≠ [] ∧ (39 : UInt8) ∉ v ∧ (0 : UInt8) ∉ v

/-- A quoted value is read up to its closing quote. -/
theorem quotedAt_value {v : Str} (hv : (39 : UInt8) ∉ v) (p r : Str) :
    quotedAt (p ++ (39 :: (v ++ 39 :: r))) p.length = (v, p.length + (v.length + 2)) := by
  have e : p ++ (39 :: (v ++ 39 :: r)) = (p ++ [39]) ++ (v ++ 39 :: r) := by simp
  have hfind : findFrom (str "'") (p ++ (39 :: (v ++ 39 :: r))) (p.length + 1) = some (v.length + (p.length + 1)) := by
    have := findFrom_append (str "'") (p ++ [39]) (v ++ 39 :: r)
    rw [List.length_append, List.length_singleton, quote_eq, find_singleton hv] at this
    rw [e, quote_eq, this]; rfl
  have hcount : v.length + (p.length + 1) - p.length - 1 = v.length := by omega
  rw [quotedAt, hfind]
  simp only [Prod.mk.injEq, hcount]
  refine ⟨?_, by omega⟩
  rw [e, show p.length + 1 = (p ++ [39]).length by simp, ← List.append_assoc]
  exact substr_mid _ _ _

/-- The round at the space before a value only moves on. -/
theorem tokenizeLoop_space (fuel : Nat) (acc : List Str) (p r : Str) :
    tokenizeLoop (p ++ 32 :: r) (fuel + 1) p.length acc = tokenizeLoop (p ++ 32 :: r) fuel (p.length + 1) acc := by
  have hsep : findFrom (str " ") (p ++ 32 :: r) p.length = some p.length := by
    rw [findFrom_append, space_eq, ← List.nil_append (32 :: r), find_singleton (by simp)]
    simp
  have hquote : findFrom (str "'") (p ++ 32 :: r) p.length ≠ some p.length := by
    intro h
    have := (findFrom_byte (b := 39) h).2
    simp at this
  rw [tokenizeLoop, hsep]
  simp [hquote, substr]

theorem findFrom_quote_here (p r : Str) : findFrom (str "'") (p ++ 39 :: r) p.length = some p.length := by
  rw [findFrom_append, quote_eq, ← List.nil_append (39 :: r), find_singleton (by simp)]
  simp

/-- The round at a quoted value takes it, as long as a space follows somewhere. -/
theorem tokenizeLoop_quoted {v : Str} (hv : IsValue v) (fuel : Nat) (acc : List Str) (p : Str) {r : Str}
    (hspace : (32 : UInt8) ∈ v ++ r) :
    tokenizeLoop (p ++ (39 :: (v ++ 39 :: r))) (fuel + 1) p.length acc =
      tokenizeLoop (p ++ (39 :: (v ++ 39 :: r))) fuel (p.length + (v.length + 2)) (acc ++ [v]) := by
  have hsep : ∃ seploc, findFrom (str " ") (p ++ (39 :: (v ++ 39 :: r))) p.length = some seploc := by
    rw [findFrom_append, space_eq]
    rcases hf : find [32] (39 :: (v ++ 39 :: r)) with _ | i
    · have := find_singleton_none hf
      simp only [List.mem_append, List.mem_cons] at hspace this
      tauto
    · exact ⟨_, rfl⟩
  obtain ⟨seploc, hsep⟩ := hsep
  rw [tokenizeLoop, hsep]
  simp only [findFrom_quote_here, if_true, quotedAt_value hv.2.1, cstr_of_notMem hv.2.2]

/-- The round at the last value, when it holds no space itself. -/
theorem tokenizeLoop_last {v : Str} (hv : IsValue v) (hns : (32 : UInt8) ∉ v) (fuel : Nat) (acc : List Str) (p : Str) :
    tokenizeLoop (p ++ (39 :: (v ++ [39]))) (fuel + 1) p.length acc = some (acc ++ [v]) := by
  have hsep : findFrom (str " ") (p ++ (39 :: (v ++ [39]))) p.length = none := by
    rw [findFrom_append, space_eq, find_none_of_notMem (c := 32) ⟨[], rfl, by simp⟩]
    · rfl
    · simp [hns]
  have hne : v ≠ str "''" := fun e => hv.2.1 (by rw [e]; decide)
  rw [tokenizeLoop, hsep]
  simp only [findFrom_quote_here, if_true, quotedAt_value hv.2.1, cstr_of_notMem hv.2.2]
  rw [if_pos ⟨hv.1, hne⟩]

/-- Nothing is left behind the last value. -/
theorem tokenizeLoop_end (fuel : Nat) (acc : List Str) (p : Str) :
    tokenizeLoop p (fuel + 1) p.length acc = some acc := by
  have h : ∀ b : UInt8, findFrom [b] p p.length = none := by
    intro b
    have := findFrom_append [b] p []
    rw [List.append_nil] at this
    rw [this]; rfl
  rw [tokenizeLoop, space_eq, quote_eq, h, h]
  simp [substr]

theorem tokenizeLoop_values : ∀ (vals : List Str), (∀ v ∈ vals, IsValue v) → ∀ (p : Str) (acc : List Str) (fuel : Nat),
    2 * vals.length + 1 ≤ fuel →
    tokenizeLoop (p ++ (vals.map quoted).flatten) fuel p.length acc = some (acc ++ vals) := by
  intro vals
  induction vals with
  | nil =>
    intro _ p acc fuel hf
    rw [show fuel = fuel - 1 + 1 by simp at hf; omega]
    simpa using tokenizeLoop_end (fuel - 1) acc p
  | cons v vs ih =>
    intro hvals p acc fuel hf
    have hv := hvals v List.mem_cons_self
    have e : p ++ ((v :: vs).map quoted).flatten = p ++ 32 :: (39 :: (v ++ 39 :: (vs.map quoted).flatten)) := by
      simp [quoted, show str " '" = [32, 39] by decide, quote_eq]
    have e' : p ++ 32 :: (39 :: (v ++ 39 :: (vs.map quoted).flatten)) =
        (p ++ [32]) ++ (39 :: (v ++ 39 :: (vs.map quoted).flatten)) := by simp
    rw [List.length_cons] at hf
    rw [e, show fuel = fuel - 2 + 1 + 1 by omega, tokenizeLoop_space, e', show p.length + 1 = (p ++ [32]).length by simp]
    by_cases hspace : (32 : UInt8) ∈ v ++ (vs.map quoted).flatten
    · rw [tokenizeLoop_quoted hv _ _ _ hspace]
      have := ih (fun x hx => hvals x (List.mem_cons_of_mem _ hx)) (p ++ 32 :: 39 :: (v ++ [39])) (acc ++ [v]) (fuel - 2)
        (by omega)
      simp only [List.length_append, List.length_cons, List.length_nil, List.append_assoc, List.cons_append,
        List.nil_append] at this ⊢
      rw [show p.length + (0 + 1) + (v.length + 2) = p.length + (v.length + (0 + 1) + 1 + 1) by omega]
      exact this
    · have hvs : vs = [] := by
        rcases vs with _ | ⟨w, ws⟩
        · rfl
        · exact absurd (by simp [quoted, show str " '" = [32, 39] by decide]) hspace
      subst hvs
      simp only [List.map_nil, List.flatten_nil, List.append_nil] at hspace ⊢
      exact tokenizeLoop_last hv hspace _ _ _

/-- A first word without spaces and quotes, then quoted values. -/
theorem tokenizeOpCmd_line {first : Str} (hf : IsValue first) (hs : (32 : UInt8) ∉ first) {vals : List Str}
    (hne : vals ≠ []) (hvals : ∀ v ∈ vals, IsValue v) {fuel : Nat} (hfuel : 2 * vals.length + 1 ≤ fuel) :
    tokenizeOpCmd fuel (first ++ (vals.map quoted).flatten) = some (first :: vals) := by
  obtain ⟨v, vs, rfl⟩ := List.exists_cons_of_ne_nil hne
  have hv := hvals v List.mem_cons_self
  have e : ((v :: vs).map quoted).flatten = 32 :: (39 :: (v ++ 39 :: (vs.map quoted).flatten)) := by
    simp [quoted, show str " '" = [32, 39] by decide, quote_eq]
  have hsep : findFrom (str " ") (first ++ ((v :: vs).map quoted).flatten) 0 = some first.length := by
    rw [findFrom, if_pos (by omega), space_eq, e, List.drop_zero, find_singleton hs]; rfl
  have hquote : findFrom (str "'") (first ++ ((v :: vs).map quoted).flatten) 0 ≠ some 0 := by
    intro h
    have := (findFrom_byte (b := 39) h).2
    obtain ⟨c, w, rfl⟩ := List.exists_cons_of_ne_nil hf.1
    simp at this
    exact hf.2.1 (by simp [this])
  -- The first round takes the word and steps over the space: from there on the loop
  -- meets what it meets from the space itself.
  have hspace := tokenizeLoop_space (fuel - 1) [first] first (39 :: (v ++ 39 :: (vs.map quoted).flatten))
  rw [← e] at hspace
  rw [tokenizeOpCmd, show fuel = fuel - 1 + 1 by omega, tokenizeLoop, hsep]
  simp only [hquote, if_false]
  rw [show substr (first ++ ((v :: vs).map quoted).flatten) 0 (first.length - 0) = first by simp [substr],
    if_pos hf.1, cstr_of_notMem hf.2.2, List.nil_append, ← hspace]
  exact tokenizeLoop_values (v :: vs) hvals first [first] _ (by omega)

end VyattaRest.Chunker
