/-
  VyattaRest.Lib.Machine — runs of a state machine.

  A machine is a partial step function over labels; a label says who moves and how the world
  answers. `Run step ok s tr s'` is a run whose steps all meet a condition on the state before
  them. `Run.invariant` is the induction over runs, `Run.append` and `Run.split` put them
  together and take them apart, and `exists_run_of_exec` gets a run from a list of labels.
-/

import Mathlib.Data.List.Basic

namespace VyattaRest.Lib

variable {σ ℓ : Type} {step : σ → ℓ → Option σ} {ok : σ → ℓ → Prop}

inductive Run (step : σ → ℓ → Option σ) (ok : σ → ℓ → Prop) (s₀ : σ) : List ℓ → σ → Prop where
  | nil : Run step ok s₀ [] s₀
  | snoc {tr : List ℓ} {s : σ} {l : ℓ} {s' : σ} (h : Run step ok s₀ tr s) (hok : ok s l) (hstep : step s l = some s') :
      Run step ok s₀ (tr ++ [l]) s'

namespace Run

/-- What holds at the start and is kept by every step of the kind holds throughout. -/
theorem invariant {Inv : σ → Prop} {s₀ s : σ} {tr : List ℓ} (h : Run step ok s₀ tr s) (hinit : Inv s₀)
    (hkeep : ∀ {s l s'}, Inv s → ok s l → step s l = some s' → Inv s') : Inv s := by
  induction h with
  | nil => exact hinit
  | snoc _ hok hstep ih => exact hkeep ih hok hstep

theorem append {s₀ s s' : σ} {tr tr' : List ℓ} (h : Run step ok s₀ tr s) (h' : Run step ok s tr' s') :
    Run step ok s₀ (tr ++ tr') s' := by
  induction h' with
  | nil =>
    rw [List.append_nil]
    exact h
  | snoc _ hok hstep ih =>
    rw [← List.append_assoc]
    exact .snoc ih hok hstep

/-- A run passes through the states of its beginning. -/
theorem split {s₀ s : σ} {tr tr' : List ℓ} (h : Run step ok s₀ (tr ++ tr') s) :
    ∃ s₁, Run step ok s₀ tr s₁ ∧ Run step ok s₁ tr' s := by
  generalize hl : tr ++ tr' = l at h
  induction h generalizing tr' with
  | nil =>
    obtain ⟨rfl, rfl⟩ := List.append_eq_nil_iff.mp hl
    exact ⟨s₀, .nil, .nil⟩
  | @snoc l s a s' hrun hok hstep ih =>
    rcases List.eq_nil_or_concat tr' with rfl | ⟨init, last, rfl⟩
    · rw [List.append_nil] at hl
      subst hl
      exact ⟨s', .snoc hrun hok hstep, .nil⟩
    · rw [List.concat_eq_append, ← List.append_assoc] at hl
      obtain ⟨hinit, hlast⟩ := List.append_inj' hl rfl
      cases hlast
      obtain ⟨s₁, hfirst, hrest⟩ := ih hinit
      rw [List.concat_eq_append]
      exact ⟨s₁, hfirst, .snoc hrest hok hstep⟩

theorem last {s₀ s : σ} {tr : List ℓ} {l : ℓ} (h : Run step ok s₀ (tr ++ [l]) s) :
    ∃ s₁, Run step ok s₀ tr s₁ ∧ ok s₁ l ∧ step s₁ l = some s := by
  generalize hl : tr ++ [l] = l' at h
  cases h with
  | nil => simp at hl
  | snoc hrun hok hstep =>
    obtain ⟨h1, h2⟩ := List.append_inj' hl rfl
    cases h2
    subst h1
    exact ⟨_, hrun, hok, hstep⟩

/-- A condition that an invariant gives. -/
theorem strengthen {ok' : σ → ℓ → Prop} {Inv : σ → Prop} {s₀ s : σ} {tr : List ℓ} (h : Run step ok s₀ tr s)
    (hinit : Inv s₀) (hkeep : ∀ {s l s'}, Inv s → ok s l → step s l = some s' → Inv s' ∧ ok' s l) :
    Run step ok' s₀ tr s := by
  have both : Inv s ∧ Run step ok' s₀ tr s := by
    induction h with
    | nil => exact ⟨hinit, .nil⟩
    | snoc _ hok hstep ih =>
      obtain ⟨hinv, hok'⟩ := hkeep ih.1 hok hstep
      exact ⟨hinv, .snoc ih.2 hok' hstep⟩
  exact both.2

/-- A condition that every label meets. -/
theorem of_labels {P : ℓ → Prop} {s₀ s : σ} {tr : List ℓ} (h : Run step ok s₀ tr s) (hP : ∀ l ∈ tr, P l) :
    Run step (fun _ l => P l) s₀ tr s := by
  induction h with
  | nil => exact .nil
  | @snoc tr s l s' _ _ hstep ih => exact .snoc (ih fun l hl => hP l (List.mem_append_left _ hl)) (hP l (by simp)) hstep

end Run

/-- The state after a list of labels, if every step is possible and meets a decidable
    condition. -/
def execWhile (step : σ → ℓ → Option σ) (ok : σ → ℓ → Bool) : σ → List ℓ → Option σ
  | s, [] => some s
  | s, l :: tr => if ok s l then (step s l).bind fun s' => execWhile step ok s' tr else none

theorem run_of_exec {check : σ → ℓ → Bool} (hcheck : ∀ {s l}, check s l = true → ok s l) {tr : List ℓ} :
    ∀ {s s' : σ}, execWhile step check s tr = some s' → Run step ok s tr s' := by
  induction tr with
  | nil =>
    intro s s' h
    cases h
    exact .nil
  | cons l tr ih =>
    intro s s' h
    rw [execWhile] at h
    split at h
    · rename_i hok
      obtain ⟨t, hstep, hrest⟩ := Option.bind_eq_some_iff.mp h
      exact Run.append (.snoc .nil (hcheck hok) hstep) (ih hrest)
    · cases h

theorem exists_run_of_exec {check : σ → ℓ → Bool} (hcheck : ∀ {s l}, check s l = true → ok s l) {P : σ → Bool} {s : σ}
    {tr : List ℓ} (h : (execWhile step check s tr).any P = true) : ∃ s', Run step ok s tr s' ∧ P s' = true := by
  rcases hexec : execWhile step check s tr with _ | s'
  · rw [hexec] at h
    cases h
  · rw [hexec] at h
    exact ⟨s', run_of_exec hcheck hexec, h⟩

end VyattaRest.Lib
