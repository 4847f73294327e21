/-
  VyattaRest.Chunker.OpenQuote — which statements `tokenizeOpCmd` finishes
  (chunker2_processor.cc).

  A round passes over a word and its space, or over a value and its two quotes. It goes
  back to the beginning of the statement when it stands at a quote that has no partner
  while a space is still ahead; from the beginning it comes to the same quote again.
  - `tokenizeOpCmd_ends_iff`: the loop ends exactly when the statement is not left open
    that way.
  - `a_command_that_never_starts`: a `<command>` message whose statement is.
-/

import VyattaRest.Chunker.Tokenize
import VyattaRest.Chunker.Wire

namespace VyattaRest.Chunker

open VyattaRest.Lib VyattaRest.Rest

/-- A text the loop passes over, from the beginning of a statement. -/
inductive Passed : Str → Prop where
  | nil : Passed []
  | word {p w : Str} : Passed p → (32 : UInt8) ∉ w → w.head? ≠ some 39 → Passed (p ++ (w ++ [32]))
  | value {p v : Str} : Passed p → (39 : UInt8) ∉ v → Passed (p ++ (39 :: (v ++ [39])))

/-- Behind a text that is passed over stands a quote without a partner, and a space further on. -/
def LeftOpen (s : Str) : Prop :=
  ∃ p r : Str, s = p ++ 39 :: r ∧ Passed p ∧ (39 : UInt8) ∉ r ∧ (32 : UInt8) ∈ r

/-! ## Rounds -/

theorem findFrom_space {p t : Str} (h : (32 : UInt8) ∈ t) :
    ∃ seploc, findFrom (str " ") (p ++ t) p.length = some seploc := by
  rw [findFrom_append, space_eq]
  rcases hf : find [32] t with _ | i
  · exact absurd h (find_singleton_none hf)
  · exact ⟨_, rfl⟩

/-- The round at a word moves behind its space. -/
theorem tokenizeLoop_word {p w : Str} (hw : (32 : UInt8) ∉ w) (hq : w.head? ≠ some 39) (t : Str) (fuel : Nat)
    (acc : List Str) : ∃ acc', tokenizeLoop (p ++ (w ++ 32 :: t)) (fuel + 1) p.length acc =
      tokenizeLoop (p ++ (w ++ 32 :: t)) fuel (p ++ (w ++ [32])).length acc' := by
  have hsep : findFrom (str " ") (p ++ (w ++ 32 :: t)) p.length = some (w.length + p.length) := by
    rw [findFrom_append, space_eq, find_singleton hw]
    rfl
  have hquote : findFrom (str "'") (p ++ (w ++ 32 :: t)) p.length ≠ some p.length := by
    intro h
    have hat := (findFrom_byte (b := 39) h).2
    rcases w with _ | ⟨c, w⟩
    · simp at hat
    · simp_all
  have hlen : (p ++ (w ++ [32])).length = w.length + p.length + 1 := by
    simp only [List.length_append, List.length_singleton]
    omega
  rw [tokenizeLoop, hsep, hlen]
  simp only [hquote, if_false]
  exact ⟨_, rfl⟩

/-- The round at a quoted value moves behind its closing quote. -/
theorem tokenizeLoop_value {p v : Str} (hv : (39 : UInt8) ∉ v) {t : Str} (hspace : (32 : UInt8) ∈ v ++ t) (fuel : Nat)
    (acc : List Str) : ∃ acc', tokenizeLoop (p ++ (39 :: (v ++ 39 :: t))) (fuel + 1) p.length acc =
      tokenizeLoop (p ++ (39 :: (v ++ 39 :: t))) fuel (p ++ (39 :: (v ++ [39]))).length acc' := by
  have hmem : (32 : UInt8) ∈ 39 :: (v ++ 39 :: t) := by
    simp only [List.mem_append, List.mem_cons] at hspace ⊢
    tauto
  obtain ⟨seploc, hsep⟩ := findFrom_space (p := p) hmem
  have hlen : (p ++ (39 :: (v ++ [39]))).length = p.length + (v.length + 2) := by simp
  rw [tokenizeLoop, hsep, hlen]
  simp only [findFrom_quote_here, if_true, quotedAt_value hv]
  exact ⟨_, rfl⟩

/-- The round at a quote without a partner goes back to the beginning. -/
theorem tokenizeLoop_open {p r : Str} (hr : (39 : UInt8) ∉ r) (hspace : (32 : UInt8) ∈ r) (fuel : Nat)
    (acc : List Str) : ∃ acc', tokenizeLoop (p ++ 39 :: r) (fuel + 1) p.length acc =
      tokenizeLoop (p ++ 39 :: r) fuel 0 acc' := by
  obtain ⟨seploc, hsep⟩ := findFrom_space (p := p) (List.mem_cons_of_mem 39 hspace)
  have hclose : findFrom (str "'") (p ++ 39 :: r) (p.length + 1) = none := by
    have := findFrom_append (str "'") (p ++ [39]) r
    rw [quote_eq, find_none_of_notMem (c := 39) ⟨[], rfl, by simp⟩ hr] at this
    simpa [quote_eq] using this
  rw [tokenizeLoop, hsep]
  simp only [findFrom_quote_here, if_true, quotedAt, hclose]
  exact ⟨_, rfl⟩

/-- Without a space ahead the round is the last one. -/
theorem tokenizeLoop_stops {p t : Str} (h : (32 : UInt8) ∉ t) (fuel : Nat) (acc : List Str) :
    ∃ ws, tokenizeLoop (p ++ t) (fuel + 1) p.length acc = some ws := by
  have hsep : findFrom (str " ") (p ++ t) p.length = none := by
    rw [findFrom_append, space_eq, find_none_of_notMem (c := 32) ⟨[], rfl, by simp⟩ h]
    rfl
  rw [tokenizeLoop, hsep]
  exact ⟨_, rfl⟩

/-! ## A statement left open -/

/-- A run that ends comes to the end of every text it passes over while a space is ahead. -/
theorem Passed.reached {p : Str} (hp : Passed p) : ∀ {t : Str}, (32 : UInt8) ∈ t → ∀ {fuel : Nat} {acc ws : List Str},
    tokenizeLoop (p ++ t) fuel 0 acc = some ws →
    ∃ fuel' ≤ fuel, ∃ acc', tokenizeLoop (p ++ t) fuel' p.length acc' = some ws := by
  induction hp with
  | nil => exact fun _ fuel acc _ h => ⟨fuel, Nat.le_refl _, acc, h⟩
  | @word p w _ hw hq ih =>
    intro t ht fuel acc ws h
    rw [show p ++ (w ++ [32]) ++ t = p ++ (w ++ 32 :: t) by simp] at h ⊢
    obtain ⟨fuel', hle, acc', h'⟩ := ih (by simp) h
    rcases fuel' with _ | n
    · cases h'
    · obtain ⟨acc'', hround⟩ := tokenizeLoop_word hw hq t n acc'
      exact ⟨n, by omega, acc'', hround ▸ h'⟩
  | @value p v _ hv ih =>
    intro t ht fuel acc ws h
    rw [show p ++ (39 :: (v ++ [39])) ++ t = p ++ (39 :: (v ++ 39 :: t)) by simp] at h ⊢
    obtain ⟨fuel', hle, acc', h'⟩ := ih (by simp [ht]) h
    rcases fuel' with _ | n
    · cases h'
    · obtain ⟨acc'', hround⟩ := tokenizeLoop_value (p := p) hv (List.mem_append_right v ht) n acc'
      exact ⟨n, by omega, acc'', hround ▸ h'⟩

/-- A run of a statement left open holds a shorter run of it. -/
theorem tokenizeLoop_of_leftOpen {s : Str} (h : LeftOpen s) : ∀ (fuel : Nat) (acc : List Str),
    tokenizeLoop s fuel 0 acc = none := by
  obtain ⟨p, r, rfl, hp, hr, hspace⟩ := h
  intro fuel
  induction fuel using Nat.strong_induction_on with
  | _ fuel ih =>
    intro acc
    by_contra hc
    obtain ⟨ws, hws⟩ := Option.ne_none_iff_exists'.mp hc
    obtain ⟨fuel', hle, acc', h'⟩ := hp.reached (List.mem_cons_of_mem 39 hspace) hws
    rcases fuel' with _ | n
    · cases h'
    · obtain ⟨acc'', hround⟩ := tokenizeLoop_open (p := p) hr hspace n acc'
      rw [hround, ih n (by omega)] at h'
      cases h'

/-! ## Every other statement -/

/-- From the end of a text that is passed over the loop ends within the rest of the statement. -/
theorem tokenizeLoop_ends : ∀ (n : Nat) {p t : Str}, Passed p → ¬ LeftOpen (p ++ t) → t.length < n →
    ∀ acc, ∃ ws, tokenizeLoop (p ++ t) n p.length acc = some ws := by
  intro n
  induction n with
  | zero => intro p t _ _ hn; omega
  | succ n ih =>
    intro p t hp hopen hn acc
    by_cases hspace : (32 : UInt8) ∈ t
    · by_cases hq : t.head? = some 39
      · obtain ⟨r, rfl⟩ : ∃ r, t = 39 :: r := List.head?_eq_some_iff.mp hq
        have hspace : (32 : UInt8) ∈ r := by simpa using hspace
        have hclose : (39 : UInt8) ∈ r := by
          by_contra hc
          exact hopen ⟨p, r, rfl, hp, hc, hspace⟩
        obtain ⟨v, t, rfl, hv⟩ := List.eq_append_cons_of_mem hclose
        have hs : p ++ (39 :: (v ++ [39])) ++ t = p ++ (39 :: (v ++ 39 :: t)) := by simp
        obtain ⟨acc', hround⟩ := tokenizeLoop_value (p := p) hv (t := t) (by simpa using hspace) n acc
        rw [hround, ← hs]
        refine ih (.value hp hv) (hs ▸ hopen) ?_ acc'
        simp only [List.length_cons, List.length_append] at hn
        omega
      · obtain ⟨w, t, rfl, hw⟩ := List.eq_append_cons_of_mem hspace
        have hhead : w.head? ≠ some 39 := by
          intro hc
          obtain ⟨w, rfl⟩ := List.head?_eq_some_iff.mp hc
          exact hq rfl
        have hs : p ++ (w ++ [32]) ++ t = p ++ (w ++ 32 :: t) := by simp
        obtain ⟨acc', hround⟩ := tokenizeLoop_word (p := p) hw hhead t n acc
        rw [hround, ← hs]
        refine ih (.word hp hw hhead) (hs ▸ hopen) ?_ acc'
        simp only [List.length_cons, List.length_append] at hn
        omega
    · exact tokenizeLoop_stops hspace n acc

theorem tokenizeOpCmd_ends_iff (s : Str) : (∃ fuel ws, tokenizeOpCmd fuel s = some ws) ↔ ¬ LeftOpen s := by
  constructor
  · intro ⟨fuel, ws, h⟩ hopen
    rw [tokenizeOpCmd, tokenizeLoop_of_leftOpen hopen] at h
    cases h
  · intro hopen
    exact ⟨s.length + 1, tokenizeLoop_ends (s.length + 1) .nil hopen (Nat.lt_succ_self _) []⟩

/-- The message is a command with a token, a statement and a user, so `start_new` goes on with it. -/
theorem a_command_that_never_starts :
    ∃ m f, branch (received m) = some .command ∧ fields (received m) = some f ∧
      f.token ≠ [] ∧ f.user ≠ [] ∧ f.statement = str "ping 'a b" ∧ ∀ fuel, tokenizeOpCmd fuel f.statement = none := by
  refine ⟨str "<command><token>t</token><statement>ping 'a b</statement><user>u</user></command>\n",
    ⟨str "t", str "ping 'a b", str "u"⟩, by decide, by decide, by decide, by decide, rfl, ?_⟩
  intro fuel
  have hp : Passed (str "ping ") := .word (w := str "ping") .nil (by decide) (by decide)
  exact tokenizeLoop_of_leftOpen ⟨str "ping ", str "a b", by decide, hp, by decide, by decide⟩ fuel []

end VyattaRest.Chunker
