/-
  VyattaRest.Lib.Prog — programs that call the outside world.

  `Prog C A α` is a program that makes calls `c : C`, goes on with an answer in `A c`, and
  returns an `α` or ends with an exception nobody catches (`throw`). Nothing is said about
  the answers: `Exec env p tr q` runs `p` through the calls and answers of `tr` to `q`,
  where `env` says which answers the world may give to a call.

  `wp env ok exc p Q` is the weakest precondition: every call `p` can make is `ok`, every
  result is in `Q`, and `p` throws only if `exc`. Its rules are read off the program
  (`wp_ret`, `wp_perform`, `wp_bind`), and `Exec.wp` brings it down to runs. `Exec.bind_inv`
  takes a run of a sequence apart. `within` is the same precondition in a world with a state,
  and `ensures` asks for a result besides.
  `never_throws_iff` and `exec_throw` are about exceptions, `Returns` asks for a result in
  every world that answers (`returns_of_wp`), and `replay` runs a program on given answers.
  `interp` runs it in a world with a state, to the end if the world answers (`interp_of_wp`).
-/

import Mathlib.Data.List.Basic

namespace VyattaRest.Lib

inductive Prog (C : Type) (A : C → Type) (α : Type) where
  | ret (a : α)
  | call (c : C) (k : A c → Prog C A α)
  | throw

namespace Prog

variable {C : Type} {A : C → Type} {α β : Type}

def bind : Prog C A α → (α → Prog C A β) → Prog C A β
  | ret a, f => f a
  | call c k, f => call c fun x => (k x).bind f
  | throw, _ => throw

instance : Monad (Prog C A) where
  pure := ret
  bind := bind

def perform (c : C) : Prog C A (A c) := call c ret

theorem ret_bind (a : α) (f : α → Prog C A β) : (pure a : Prog C A α) >>= f = f a := rfl

/-- What returns without a call returns at each of its parts. -/
theorem bind_eq_ret {p : Prog C A α} {f : α → Prog C A β} {b : β} (h : p >>= f = pure b) :
    ∃ a, p = pure a ∧ f a = pure b := by
  cases p with
  | ret a => exact ⟨a, rfl, h⟩
  | call c k => cases h
  | throw => cases h

/-- `p` goes to `q` through the calls and answers of the list. -/
inductive Exec (env : (c : C) → A c → Prop) : Prog C A α → List (Sigma A) → Prog C A α → Prop where
  | nil (p : Prog C A α) : Exec env p [] p
  | cons {c : C} {k : A c → Prog C A α} {a : A c} {tr : List (Sigma A)} {q : Prog C A α} (h : env c a)
      (rest : Exec env (k a) tr q) : Exec env (call c k) (⟨c, a⟩ :: tr) q

section Wp

variable {env : (c : C) → A c → Prop} {ok : C → Prop} {exc : Prop}

def wp (env : (c : C) → A c → Prop) (ok : C → Prop) (exc : Prop) : Prog C A α → (α → Prop) → Prop
  | ret a, Q => Q a
  | call c k, Q => ok c ∧ ∀ a, env c a → (k a).wp env ok exc Q
  | throw, _ => exc

@[simp] theorem wp_ret (a : α) (Q : α → Prop) : wp env ok exc (ret a) Q ↔ Q a := Iff.rfl

@[simp] theorem wp_pure (a : α) (Q : α → Prop) : wp env ok exc (pure a : Prog C A α) Q ↔ Q a := Iff.rfl

@[simp] theorem wp_throw (Q : α → Prop) : wp env ok exc (throw : Prog C A α) Q ↔ exc := Iff.rfl

@[simp] theorem wp_perform (c : C) (Q : A c → Prop) : wp env ok exc (perform c) Q ↔ ok c ∧ ∀ a, env c a → Q a := Iff.rfl

@[simp] theorem wp_bind (p : Prog C A α) (f : α → Prog C A β) (Q : β → Prop) :
    wp env ok exc (p >>= f) Q ↔ wp env ok exc p fun a => wp env ok exc (f a) Q := by
  show wp env ok exc (p.bind f) Q ↔ _
  induction p with
  | ret a => exact Iff.rfl
  | call c k ih => exact and_congr_right fun _ => forall_congr' fun a => imp_congr_right fun _ => ih a
  | throw => exact Iff.rfl

theorem wp_ite {c : Prop} [Decidable c] (p q : Prog C A α) (Q : α → Prop) :
    wp env ok exc (if c then p else q) Q ↔ (c → wp env ok exc p Q) ∧ (¬ c → wp env ok exc q Q) := by
  split <;> simp [*]

theorem wp_mono {p : Prog C A α} {Q Q' : α → Prop} (h : wp env ok exc p Q) (hQ : ∀ a, Q a → Q' a) :
    wp env ok exc p Q' := by
  induction p with
  | ret a => exact hQ a h
  | call c k ih => exact ⟨h.1, fun a ha => ih a (h.2 a ha)⟩
  | throw => exact h

theorem wp_allow {ok' : C → Prop} {p : Prog C A α} {Q : α → Prop} (h : wp env ok exc p Q) (hok : ∀ c, ok c → ok' c) :
    wp env ok' exc p Q := by
  induction p with
  | ret a => exact h
  | call c k ih => exact ⟨hok c h.1, fun a ha => ih a (h.2 a ha)⟩
  | throw => exact h

theorem wp_and {p : Prog C A α} {Q Q' : α → Prop} (h : wp env ok exc p Q) (h' : wp env ok exc p Q') :
    wp env ok exc p fun a => Q a ∧ Q' a := by
  induction p with
  | ret a => exact ⟨h, h'⟩
  | call c k ih => exact ⟨h.1, fun a ha => ih a (h.2 a ha) (h'.2 a ha)⟩
  | throw => exact h

/-- A run keeps the precondition. -/
theorem Exec.wp {p q : Prog C A α} {tr : List (Sigma A)} {Q : α → Prop} (hr : Exec env p tr q)
    (h : p.wp env ok exc Q) : q.wp env ok exc Q := by
  induction hr with
  | nil p => exact h
  | cons ha _ ih => exact ih (h.2 _ ha)

/-- A call that a run comes to is one of those allowed. -/
theorem Exec.allowed {p : Prog C A α} {tr : List (Sigma A)} {c : C} {k : A c → Prog C A α} {Q : α → Prop}
    (hr : Exec env p tr (call c k)) (h : p.wp env ok exc Q) : ok c := (hr.wp h).1

/-- The calls that a run has made. -/
theorem Exec.made {p q : Prog C A α} {tr : List (Sigma A)} {Q : α → Prop} (hr : Exec env p tr q) :
    p.wp env ok exc Q → ∀ x ∈ tr, ok x.1 := by
  induction hr with
  | nil p =>
    intro _ x hx
    cases hx
  | cons ha _ ih =>
    intro h x hx
    rcases List.mem_cons.mp hx with rfl | hx
    · exact h.1
    · exact ih (h.2 _ ha) x hx

end Wp

variable {env : (c : C) → A c → Prop}

/-- A run that returns has been through the call that comes first. -/
theorem Exec.call_inv {c : C} {k : A c → Prog C A α} {tr : List (Sigma A)} {a : α} (h : Exec env (call c k) tr (ret a)) :
    ∃ x tr', env c x ∧ tr = ⟨c, x⟩ :: tr' ∧ Exec env (k x) tr' (ret a) := by
  cases h with
  | cons hx hrest => exact ⟨_, _, hx, rfl, hrest⟩

theorem Exec.ret_inv {a b : α} {tr : List (Sigma A)} (h : Exec env (ret a) tr (ret b)) : tr = [] ∧ b = a := by
  cases h
  exact ⟨rfl, rfl⟩

theorem Exec.throw_inv {a : α} {tr : List (Sigma A)} (h : Exec env throw tr (ret a)) : False := nomatch h

/-- A run of a sequence is still in its first part, or has left it with a result. -/
theorem Exec.bind_inv {p : Prog C A α} {f : α → Prog C A β} {tr : List (Sigma A)} {q : Prog C A β}
    (h : Exec env (p >>= f) tr q) :
    (∃ p', Exec env p tr p' ∧ q = p'.bind f) ∨
      ∃ tr₁ tr₂ a, tr = tr₁ ++ tr₂ ∧ Exec env p tr₁ (ret a) ∧ Exec env (f a) tr₂ q := by
  change Exec env (p.bind f) tr q at h
  induction p generalizing tr with
  | ret a => exact Or.inr ⟨[], tr, a, rfl, Exec.nil _, h⟩
  | throw =>
    cases h
    exact Or.inl ⟨throw, Exec.nil _, rfl⟩
  | call c k ih =>
    cases h with
    | nil => exact Or.inl ⟨call c k, Exec.nil _, rfl⟩
    | cons ha hrest =>
      rcases ih _ hrest with ⟨p', hp, hq⟩ | ⟨tr₁, tr₂, a, rfl, hp, hf⟩
      · exact Or.inl ⟨p', Exec.cons ha hp, hq⟩
      · exact Or.inr ⟨_ :: tr₁, tr₂, a, rfl, Exec.cons ha hp, hf⟩

/-- Runs of the parts make a run of the sequence. -/
theorem Exec.bind {p : Prog C A α} {f : α → Prog C A β} {tr₁ tr₂ : List (Sigma A)} {a : α} {q : Prog C A β}
    (h : Exec env p tr₁ (ret a)) (h' : Exec env (f a) tr₂ q) : Exec env (p >>= f) (tr₁ ++ tr₂) q := by
  generalize hr : ret a = r at h
  induction h with
  | nil p =>
    subst hr
    exact h'
  | cons hx _ ih => exact Exec.cons hx (ih hr)

/-- A run of a sequence that returns has come through both parts. -/
theorem Exec.bind_ret_inv {p : Prog C A α} {f : α → Prog C A β} {tr : List (Sigma A)} {b : β}
    (h : Exec env (p >>= f) tr (ret b)) :
    ∃ tr₁ tr₂ a, tr = tr₁ ++ tr₂ ∧ Exec env p tr₁ (ret a) ∧ Exec env (f a) tr₂ (ret b) := by
  rcases h.bind_inv with ⟨p', hp, hq⟩ | h
  · cases p' with
    | ret a => exact ⟨tr, [], a, (List.append_nil tr).symm, hp, hq ▸ Exec.nil _⟩
    | call c k => cases hq
    | throw => cases hq
  · exact h

/-- The next call of a run of a sequence belongs to its first part or to what follows. -/
theorem Exec.bind_call {p : Prog C A α} {f : α → Prog C A β} {tr : List (Sigma A)} {c : C} {k : A c → Prog C A β}
    (h : Exec env (p >>= f) tr (call c k)) :
    (∃ k', Exec env p tr (call c k')) ∨
      ∃ tr₁ tr₂ a, tr = tr₁ ++ tr₂ ∧ Exec env p tr₁ (ret a) ∧ Exec env (f a) tr₂ (call c k) := by
  rcases h.bind_inv with ⟨p', hp, hq⟩ | h
  · cases p' with
    | ret a => exact Or.inr ⟨tr, [], a, (List.append_nil tr).symm, hp, hq ▸ Exec.nil _⟩
    | call c' k' =>
      cases hq
      exact Or.inl ⟨k', hp⟩
    | throw => cases hq
  · exact Or.inr h

/-- The answers of a run are answers the world may give. -/
theorem Exec.answered {p q : Prog C A α} {tr : List (Sigma A)} (h : Exec env p tr q) : ∀ x ∈ tr, env x.1 x.2 := by
  induction h with
  | nil p =>
    intro x hx
    cases hx
  | cons ha _ ih =>
    intro x hx
    rcases List.mem_cons.mp hx with rfl | hx
    · exact ha
    · exact ih x hx

/-- A run needs no other answers than the ones it got. -/
theorem Exec.self {p q : Prog C A α} {tr : List (Sigma A)} (h : Exec env p tr q) :
    Exec (fun c a => (⟨c, a⟩ : Sigma A) ∈ tr) p tr q := by
  have key : ∀ {p q : Prog C A α} {tr : List (Sigma A)}, Exec env p tr q → ∀ tr₀ : List (Sigma A), tr ⊆ tr₀ →
      Exec (fun c a => (⟨c, a⟩ : Sigma A) ∈ tr₀) p tr q := by
    intro p q tr h
    induction h with
    | nil p => intro _ _; exact Exec.nil p
    | cons _ _ ih =>
      intro tr₀ hsub
      exact Exec.cons (hsub List.mem_cons_self) (ih tr₀ fun x hx => hsub (List.mem_cons_of_mem _ hx))
  exact key h tr fun _ hx => hx

/-- The answers of a world are answers of any that gives more. -/
theorem Exec.mono {env' : (c : C) → A c → Prop} {p q : Prog C A α} {tr : List (Sigma A)} (h : Exec env p tr q)
    (hsub : ∀ c a, env c a → env' c a) : Exec env' p tr q := by
  induction h with
  | nil p => exact Exec.nil p
  | cons ha _ ih => exact Exec.cons (hsub _ _ ha) ih

/-- The precondition, read off the runs. -/
theorem wp_iff_exec {p : Prog C A α} {ok : C → Prop} {Q : α → Prop} : p.wp env ok True Q ↔
    (∀ tr c k, Exec env p tr (call c k) → ok c) ∧ ∀ tr a, Exec env p tr (ret a) → Q a := by
  constructor
  · exact fun h => ⟨fun tr c k hr => hr.allowed h, fun tr a hr => hr.wp h⟩
  · intro h
    induction p with
    | ret a => exact h.2 [] a (Exec.nil _)
    | throw => trivial
    | call c k ih =>
      refine ⟨h.1 [] c k (Exec.nil _), fun a ha => ih a ⟨fun tr c' k' hr => ?_, fun tr a' hr => ?_⟩⟩
      · exact h.1 _ c' k' (Exec.cons ha hr)
      · exact h.2 _ a' (Exec.cons ha hr)

/-! ## Worlds with a state -/

section Within

variable {σ : Type} {next : σ → Sigma A → Option σ} {may : σ → C → Prop}

/-- The weakest precondition in a world with a state. `next` is the state after a call and its
    answer, `none` for an answer that the world does not give. Every call is one that `may` be
    made in the state it is made in, and every result and the state then are in `Q`. -/
def within (next : σ → Sigma A → Option σ) (may : σ → C → Prop) : Prog C A α → (α → σ → Prop) → σ → Prop
  | ret a, Q, s => Q a s
  | call c k, Q, s => may s c ∧ ∀ a s', next s ⟨c, a⟩ = some s' → (k a).within next may Q s'
  | throw, _, _ => True

theorem within_bind (p : Prog C A α) (f : α → Prog C A β) (Q : β → σ → Prop) (s : σ) :
    within next may (p >>= f) Q s ↔ within next may p (fun a => within next may (f a) Q) s := by
  show within next may (p.bind f) Q s ↔ _
  induction p generalizing s with
  | ret a => exact Iff.rfl
  | call c k ih => exact and_congr_right fun _ => forall_congr' fun a => forall_congr' fun s' => imp_congr_right fun _ => ih a s'
  | throw => exact Iff.rfl

theorem within_ite {c : Prop} [Decidable c] (p q : Prog C A α) (Q : α → σ → Prop) (s : σ) :
    within next may (if c then p else q) Q s ↔ (c → within next may p Q s) ∧ (¬ c → within next may q Q s) := by
  split <;> simp [*]

theorem within_mono {p : Prog C A α} {Q Q' : α → σ → Prop} {s : σ} (h : within next may p Q s)
    (hQ : ∀ a s', Q a s' → Q' a s') : within next may p Q' s := by
  induction p generalizing s with
  | ret a => exact hQ a s h
  | call c k ih => exact ⟨h.1, fun a s' hs => ih a (h.2 a s' hs)⟩
  | throw => trivial

/-- What every call of a kind does to the state, any number of them do. -/
theorem within_of_wp {ok : C → Prop} {R : σ → σ → Prop} {p : Prog C A α} {Q : α → Prop} {s : σ}
    (h : p.wp (fun _ _ => True) ok True Q) (hrefl : ∀ s, R s s) (htrans : ∀ {s₁ s₂ s₃}, R s₁ s₂ → R s₂ s₃ → R s₁ s₃)
    (hmay : ∀ s c, ok c → may s c) (hnext : ∀ {s s' : σ} {c : C} {a : A c}, ok c → next s ⟨c, a⟩ = some s' → R s s') :
    within next may p (fun a s' => Q a ∧ R s s') s := by
  induction p generalizing s with
  | ret a => exact ⟨h, hrefl s⟩
  | call c k ih =>
    refine ⟨hmay s c h.1, fun a s' hs => ?_⟩
    exact within_mono (ih a (h.2 a trivial)) fun b s'' hb => ⟨hb.1, htrans (hnext h.1 hs) hb.2⟩
  | throw => trivial

/-- Calls that leave the state as it is, and answers that it gives. -/
theorem within_of_reads {ok : C → Prop} {p : Prog C A α} {Q : α → Prop} {s : σ} (h : p.wp env ok True Q)
    (hmay : ∀ c, ok c → may s c) (hnext : ∀ {c : C} {a : A c} {s' : σ}, ok c → next s ⟨c, a⟩ = some s' → env c a ∧ s' = s) :
    within next may p (fun a s' => Q a ∧ s' = s) s := by
  induction p with
  | ret a => exact ⟨h, rfl⟩
  | call c k ih =>
    refine ⟨hmay c h.1, fun a s' hs => ?_⟩
    obtain ⟨ha, rfl⟩ := hnext h.1 hs
    exact ih a (h.2 a ha)
  | throw => trivial

/-- The state after a list of calls and answers. -/
def after (next : σ → Sigma A → Option σ) : σ → List (Sigma A) → Option σ
  | s, [] => some s
  | s, x :: tr => (next s x).bind fun s' => after next s' tr

theorem after_append (a b : List (Sigma A)) :
    ∀ s : σ, after next s (a ++ b) = (after next s a).bind fun s' => after next s' b := by
  induction a with
  | nil => exact fun _ => rfl
  | cons x a ih =>
    intro s
    simp only [List.cons_append, after, Option.bind_assoc]
    exact congrArg _ (funext ih)

/-- Every call of the list is made in a state it may be made in. -/
def Lawful (next : σ → Sigma A → Option σ) (may : σ → C → Prop) : σ → List (Sigma A) → Prop
  | _, [] => True
  | s, x :: tr => may s x.1 ∧ ∀ s', next s x = some s' → Lawful next may s' tr

theorem Exec.lawful {p q : Prog C A α} {tr : List (Sigma A)} {Q : α → σ → Prop} (hr : Exec env p tr q) :
    ∀ {s : σ}, p.within next may Q s → Lawful next may s tr := by
  induction hr with
  | nil p => exact fun _ => trivial
  | cons _ _ ih => exact fun h => ⟨h.1, fun s' hs => ih (h.2 _ s' hs)⟩

theorem Exec.within {p q : Prog C A α} {tr : List (Sigma A)} {Q : α → σ → Prop} (hr : Exec env p tr q) :
    ∀ {s s' : σ}, p.within next may Q s → after next s tr = some s' → q.within next may Q s' := by
  induction hr with
  | nil p =>
    intro s s' h hs
    cases hs
    exact h
  | cons _ _ ih =>
    intro s s' h hs
    obtain ⟨s₁, hx, hrest⟩ := Option.bind_eq_some_iff.mp hs
    exact ih (h.2 _ s₁ hx) hrest

/-- The same for programs that have to end with a result: every call has an answer, and none
    of them throws. -/
def ensures (next : σ → Sigma A → Option σ) : Prog C A α → (α → σ → Prop) → σ → Prop
  | ret a, Q, s => Q a s
  | call c k, Q, s =>
    (∃ a s', next s ⟨c, a⟩ = some s') ∧ ∀ a s', next s ⟨c, a⟩ = some s' → (k a).ensures next Q s'
  | throw, _, _ => False

theorem ensures_bind (p : Prog C A α) (f : α → Prog C A β) (Q : β → σ → Prop) (s : σ) :
    ensures next (p >>= f) Q s ↔ ensures next p (fun a => ensures next (f a) Q) s := by
  show ensures next (p.bind f) Q s ↔ _
  induction p generalizing s with
  | ret a => exact Iff.rfl
  | call c k ih =>
    exact and_congr_right fun _ => forall_congr' fun a => forall_congr' fun s' => imp_congr_right fun _ => ih a s'
  | throw => exact Iff.rfl

theorem ensures_ite {c : Prop} [Decidable c] (p q : Prog C A α) (Q : α → σ → Prop) (s : σ) :
    ensures next (if c then p else q) Q s ↔ (c → ensures next p Q s) ∧ (¬ c → ensures next q Q s) := by
  split <;> simp [*]

theorem ensures_mono {p : Prog C A α} {Q Q' : α → σ → Prop} {s : σ} (h : ensures next p Q s)
    (hQ : ∀ a s', Q a s' → Q' a s') : ensures next p Q' s := by
  induction p generalizing s with
  | ret a => exact hQ a s h
  | call c k ih => exact ⟨h.1, fun a s' hs => ih a (h.2 a s' hs)⟩
  | throw => exact h

/-- What every call keeps holds at the end. -/
theorem ensures_invariant {I : σ → Prop} (hkeep : ∀ {s x s'}, I s → next s x = some s' → I s') {p : Prog C A α}
    {Q : α → σ → Prop} {s : σ} (h : ensures next p Q s) (hI : I s) : ensures next p (fun a s' => Q a s' ∧ I s') s := by
  induction p generalizing s with
  | ret a => exact ⟨h, hI⟩
  | call c k ih => exact ⟨h.1, fun a s' hs => ih a (h.2 a s' hs) (hkeep hI hs)⟩
  | throw => exact h

theorem ensures.within {p : Prog C A α} {Q : α → σ → Prop} {s : σ} (h : ensures next p Q s) :
    within next (fun _ _ => True) p Q s := by
  induction p generalizing s with
  | ret a => exact h
  | call c k ih => exact ⟨trivial, fun a s' hs => ih a (h.2 a s' hs)⟩
  | throw => trivial

end Within

/-! ## Exceptions -/

/-- No run throws: no branch does. -/
theorem never_throws_iff {p : Prog C A α} :
    (∀ tr, ¬ Exec env p tr throw) ↔ p.wp env (fun _ => True) False fun _ => True := by
  constructor
  · intro h
    induction p with
    | ret a => trivial
    | throw => exact h [] (Exec.nil _)
    | call c k ih => exact ⟨trivial, fun a ha => ih a fun tr ht => h _ (Exec.cons ha ht)⟩
  · exact fun h tr ht => ht.wp h

/-- In a world that answers every call, a program that never returns throws. -/
theorem exec_throw {p : Prog C A α} (hanswers : ∀ c, ∃ a, env c a) {ok : C → Prop}
    (h : p.wp env ok True fun _ => False) : ∃ tr, Exec env p tr throw := by
  induction p with
  | ret a => cases h
  | throw => exact ⟨[], Exec.nil _⟩
  | call c k ih =>
    obtain ⟨a, ha⟩ := hanswers c
    obtain ⟨tr, ht⟩ := ih a (h.2 a ha)
    exact ⟨_, Exec.cons ha ht⟩

/-- In such a world, a program that cannot throw returns. -/
theorem exec_ret {p : Prog C A α} (hanswers : ∀ c, ∃ a, env c a) {ok : C → Prop} {Q : α → Prop}
    (h : p.wp env ok False Q) : ∃ tr a, Exec env p tr (ret a) ∧ Q a := by
  induction p with
  | ret a => exact ⟨[], a, Exec.nil _, h⟩
  | throw => cases h
  | call c k ih =>
    obtain ⟨a, ha⟩ := hanswers c
    obtain ⟨tr, b, hr, hb⟩ := ih a (h.2 a ha)
    exact ⟨_, b, Exec.cons ha hr, hb⟩

/-- A program that comes back with a result, whatever the answers, and with one in `Q`. -/
def Returns (env : (c : C) → A c → Prop) (p : Prog C A α) (Q : α → Prop) : Prop :=
  (∃ tr a, Exec env p tr (ret a)) ∧ (∀ tr, ¬ Exec env p tr throw) ∧ ∀ tr a, Exec env p tr (ret a) → Q a

theorem returns_of_wp {p : Prog C A α} (hanswers : ∀ c, ∃ a, env c a) {ok : C → Prop} {Q : α → Prop}
    (h : p.wp env ok False Q) : p.Returns env Q := by
  obtain ⟨tr, a, hr, _⟩ := exec_ret hanswers h
  exact ⟨⟨tr, a, hr⟩, fun tr ht => ht.wp h, fun tr a hr => hr.wp h⟩

theorem result_of_wp {p : Prog C A α} (hanswers : ∀ c, ∃ a, env c a) {ok : C → Prop} {Q : α → Prop}
    (h : p.wp env ok False Q) : ∃ a, Q a := by
  obtain ⟨_, a, _, ha⟩ := exec_ret hanswers h
  exact ⟨a, ha⟩

/-! ## Replaying a run -/

section Leads

variable {P : (c : C) → (A c → Prog C A α) → Prop}

/-- What holds of every call of a program together with what follows it. -/
def Leads (P : (c : C) → (A c → Prog C A α) → Prop) : Prog C A α → Prop
  | ret _ => True
  | call c k => P c k ∧ ∀ a, (k a).Leads P
  | throw => True

/-- A call that a run comes to. -/
theorem Exec.leads {p q : Prog C A α} {tr : List (Sigma A)} (hr : Exec env p tr q) : p.Leads P → q.Leads P := by
  induction hr with
  | nil p => exact id
  | cons _ _ ih => exact fun h => ih (h.2 _)

theorem leads_ite {c : Prop} [Decidable c] {p q : Prog C A α} (hp : c → p.Leads P) (hq : ¬ c → q.Leads P) :
    (if c then p else q).Leads P := by
  split
  · exact hp ‹_›
  · exact hq ‹_›

/-- A first part whose calls do not matter. -/
theorem leads_bind {ok : C → Prop} {p : Prog C A β} {f : β → Prog C A α} {Q : β → Prop}
    (hp : p.wp (fun _ _ => True) ok True Q) (hok : ∀ c k, ok c → P c k) (hf : ∀ b, Q b → (f b).Leads P) :
    (p >>= f).Leads P := by
  show (p.bind f).Leads P
  induction p with
  | ret b => exact hf b hp
  | call c k ih => exact ⟨hok c _ hp.1, fun a => ih a (hp.2 a trivial)⟩
  | throw => trivial

end Leads

section Interp

variable {σ : Type}

/-- What a program does in a world that answers from its state; nothing if it makes a call
    that is not answered. -/
def interp (answer : σ → (c : C) → Option (A c × σ)) : Prog C A α → σ → Option (α × σ)
  | ret a, s => some (a, s)
  | call c k, s =>
    match answer s c with
    | none => none
    | some (a, s') => (k a).interp answer s'
  | throw, _ => none

variable {answer : σ → (c : C) → Option (A c × σ)}

@[simp] theorem interp_pure (a : α) (s : σ) : (pure a : Prog C A α).interp answer s = some (a, s) := rfl

theorem interp_perform {c : C} {s t : σ} {a : A c} (h : answer s c = some (a, t)) (f : A c → Prog C A β) :
    (perform c >>= f).interp answer s = (f a).interp answer t := by
  show (Prog.call c f).interp answer s = _
  rw [interp, h]

theorem interp_bind (p : Prog C A α) (f : α → Prog C A β) (s : σ) :
    (p >>= f).interp answer s = (p.interp answer s).bind fun r => (f r.1).interp answer r.2 := by
  show (p.bind f).interp answer s = _
  induction p generalizing s with
  | ret a => rfl
  | call c k ih =>
    simp only [Prog.bind, interp]
    rcases answer s c with _ | ⟨a, s'⟩
    · rfl
    · exact ih a s'
  | throw => rfl

/-- A program that does not throw comes to its result in a world that answers everything. -/
theorem interp_of_wp {ok : C → Prop} {Q : α → Prop} (hanswer : ∀ s c, (answer s c).isSome = true) {p : Prog C A α}
    (h : p.wp (fun _ _ => True) ok False Q) : ∀ s, ∃ a s', p.interp answer s = some (a, s') ∧ Q a := by
  induction p with
  | ret a => exact fun s => ⟨a, s, rfl, h⟩
  | throw => exact h.elim
  | call c k ih =>
    intro s
    obtain ⟨⟨x, s'⟩, hx⟩ := Option.isSome_iff_exists.mp (hanswer s c)
    obtain ⟨a, t, hrun, ha⟩ := ih x (h.2 x trivial) s'
    refine ⟨a, t, ?_, ha⟩
    rw [interp, hx]
    exact hrun

end Interp

section Run

variable {answer : (c : C) → A c}

/-- What a program returns in a world that gives a call the same answer each time; nothing if it throws. -/
def run (answer : (c : C) → A c) : Prog C A α → Option α
  | ret a => some a
  | call c k => (k (answer c)).run answer
  | throw => none

theorem run_bind (p : Prog C A α) (f : α → Prog C A β) :
    (p >>= f).run answer = (p.run answer).bind fun a => (f a).run answer := by
  show (p.bind f).run answer = _
  induction p with
  | ret a => rfl
  | call c k ih => exact ih (answer c)
  | throw => rfl

theorem run_of_wp {p : Prog C A α} {env : (c : C) → A c → Prop} {ok : C → Prop} {Q : α → Prop} (henv : ∀ c, env c (answer c))
    (h : p.wp env ok False Q) : ∃ a, p.run answer = some a ∧ Q a := by
  induction p with
  | ret a => exact ⟨a, rfl, h⟩
  | call c k ih => exact ih (answer c) (h.2 _ (henv c))
  | throw => cases h

end Run

/-- A program whose calls all leave the state alone. -/
theorem interp_of_reads {σ : Type} {answer : σ → (c : C) → Option (A c × σ)} {f : (c : C) → A c} {s : σ} {p : Prog C A α}
    {exc : Prop} {Q : α → Prop} (h : p.wp (fun c a => a = f c) (fun c => answer s c = some (f c, s)) exc Q) :
    p.interp answer s = (p.run f).map (·, s) := by
  induction p with
  | ret a => rfl
  | call c k ih =>
    rw [interp, h.1]
    exact ih (f c) (h.2 (f c) rfl)
  | throw => rfl

/-- The call a program makes next, if it makes one. -/
def next? : Prog C A α → Option C
  | call c _ => some c
  | _ => none

theorem next?_eq_some {p : Prog C A α} {c : C} (h : p.next? = some c) : ∃ k, p = call c k := by
  cases p with
  | call c' k =>
    cases h
    exact ⟨k, rfl⟩
  | ret a => cases h
  | throw => cases h

/-- What the answers of a list, given to the calls they belong to, make of a program. -/
def replay [DecidableEq C] : Prog C A α → List (Sigma A) → Option (Prog C A α)
  | p, [] => some p
  | call c k, x :: tr => if h : x.1 = c then (k (h ▸ x.2)).replay tr else none
  | _, _ :: _ => none

theorem exec_of_replay [DecidableEq C] {q : Prog C A α} : ∀ {tr : List (Sigma A)} {p : Prog C A α},
    (∀ x ∈ tr, env x.1 x.2) → p.replay tr = some q → Exec env p tr q := by
  intro tr
  induction tr with
  | nil =>
    intro p _ h
    cases p <;> (cases h; exact Exec.nil _)
  | cons x tr ih =>
    intro p henv h
    cases p with
    | ret a => cases h
    | throw => cases h
    | call c k =>
      rw [replay] at h
      split at h
      · rename_i hc
        subst hc
        exact Exec.cons (henv x List.mem_cons_self) (ih (fun y hy => henv y (List.mem_cons_of_mem _ hy)) h)
      · cases h

theorem exec_call_of_replay [DecidableEq C] {p : Prog C A α} {tr : List (Sigma A)} {c : C} (henv : ∀ x ∈ tr, env x.1 x.2)
    (h : (p.replay tr).bind next? = some c) : ∃ k, Exec env p tr (call c k) := by
  obtain ⟨q, hq, hc⟩ := Option.bind_eq_some_iff.mp h
  obtain ⟨k, rfl⟩ := next?_eq_some hc
  exact ⟨k, exec_of_replay henv hq⟩

/-- The result of a program that has returned. -/
def result? : Prog C A α → Option α
  | ret a => some a
  | _ => none

theorem exec_ret_of_replay [DecidableEq C] {p : Prog C A α} {tr : List (Sigma A)} {P : α → Bool}
    (henv : ∀ x ∈ tr, env x.1 x.2) (h : ((p.replay tr).bind result?).any P = true) :
    ∃ a, Exec env p tr (ret a) ∧ P a = true := by
  obtain ⟨a, ha, hP⟩ := (Option.any_eq_true _ _).mp h
  obtain ⟨q, hq, hres⟩ := Option.bind_eq_some_iff.mp ha
  cases q with
  | ret b =>
    cases hres
    exact ⟨a, exec_of_replay henv hq, hP⟩
  | call c k => cases hres
  | throw => cases hres

/-- The same in a world that may give any answer. -/
theorem exec_call_free [DecidableEq C] {p : Prog C A α} {tr : List (Sigma A)} {c : C}
    (h : (p.replay tr).bind next? = some c) : ∃ k, Exec (fun _ _ => True) p tr (call c k) :=
  exec_call_of_replay (fun _ _ => trivial) h

theorem exec_ret_free [DecidableEq C] {p : Prog C A α} {tr : List (Sigma A)} {P : α → Bool}
    (h : ((p.replay tr).bind result?).any P = true) : ∃ a, Exec (fun _ _ => True) p tr (ret a) ∧ P a = true :=
  exec_ret_of_replay (fun _ _ => trivial) h

end Prog

end VyattaRest.Lib
