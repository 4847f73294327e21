/-
  VyattaRest.Lib.Loop — `while` loops.

  A loop is a partial function on the state: a round where the condition holds, nothing where it
  does not. `Ends round s t` says that the loop that starts in `s` comes to an end, in `t`; a loop
  that runs for ever ends nowhere. A loop ends in one state only (`Ends.unique`).
-/

import Mathlib.Data.Nat.Notation

namespace VyattaRest.Lib

variable {σ : Type} {round : σ → Option σ} {s t t' : σ}

inductive Ends (round : σ → Option σ) : σ → σ → Prop where
  | stop {s : σ} (h : round s = none) : Ends round s s
  | step {s s' t : σ} (h : round s = some s') (rest : Ends round s' t) : Ends round s t

namespace Ends

theorem unique (h : Ends round s t) (h' : Ends round s t') : t = t' := by
  induction h with
  | stop hs =>
    cases h' with
    | stop => rfl
    | step hs' => cases hs.symm.trans hs'
  | step hs _ ih =>
    cases h' with
    | stop hs' => cases hs.symm.trans hs'
    | step hs' rest =>
      cases hs.symm.trans hs'
      exact ih rest

end Ends

end VyattaRest.Lib
