/-
  VyattaRest.Lib.ConfigTree — configuration trees as sets of paths.

  A tree is the list of the paths of its nodes; with a node it holds the nodes above it. A value
  of a node is one more step of the path. `put` makes a path and, at a leaf that has one value,
  takes the other values away; `delete` takes a subtree away.
  - `mem_apply`: what one edit does to a path.
  - `mem_applyAll`: a list of edits of which none removes what another adds has one result,
    whatever its order.
-/

import Mathlib.Data.List.Infix

namespace VyattaRest.Lib

structure PathTree (α : Type) where
  nodes : List (List α)
  closed : ∀ p v, p ++ [v] ∈ nodes → p ∈ nodes

namespace PathTree

variable {α : Type} [DecidableEq α] {t : PathTree α} {p q : List α}

instance : Membership (List α) (PathTree α) := ⟨fun t p => p ∈ t.nodes⟩

instance (t : PathTree α) (p : List α) : Decidable (p ∈ t) := inferInstanceAs (Decidable (p ∈ t.nodes))

omit [DecidableEq α] in
theorem mem_of_prefix (h : p <+: q) (hq : q ∈ t) : p ∈ t := by
  obtain ⟨s, rfl⟩ := h
  induction s using List.reverseRecOn with
  | nil => rwa [List.append_nil] at hq
  | append_singleton s v ih =>
    rw [← List.append_assoc] at hq
    exact ih (t.closed _ _ hq)

def children (t : PathTree α) (p : List α) : List α := t.nodes.filterMap fun q => if q.dropLast = p then q.getLast? else none

theorem mem_children {v : α} : v ∈ t.children p ↔ p ++ [v] ∈ t := by
  rw [children, List.mem_filterMap]
  constructor
  · rintro ⟨q, hq, h⟩
    split at h
    · rename_i hp
      have hsplit := List.dropLast_append_getLast? v h
      rw [hp] at hsplit
      exact hsplit ▸ hq
    · cases h
  · exact fun h => ⟨p ++ [v], h, by simp⟩

/-! ## Edits -/

inductive Edit (α : Type) where
  | put (p : List α) (single : Bool)
  | delete (p : List α)

namespace Edit

def path : Edit α → List α
  | put p _ => p
  | delete p => p

/-- The nodes that an edit makes. -/
def made : Edit α → List (List α)
  | put p _ => p.inits
  | delete _ => []

def Adds : Edit α → List α → Prop
  | put p _, q => q <+: p
  | delete _, _ => False

omit [DecidableEq α] in
theorem mem_made {x : Edit α} : q ∈ x.made ↔ x.Adds q := by
  cases x with
  | put p single => exact List.mem_inits q p
  | delete p => exact iff_of_false List.not_mem_nil not_false

/-- A leaf with one value loses what lies below it and not on the new path. -/
def Removes : Edit α → List α → Prop
  | put p single, q => single = true ∧ p.dropLast <+: q ∧ q ≠ p.dropLast ∧ ¬ p <+: q
  | delete p, q => p <+: q

instance (x : Edit α) (q : List α) : Decidable (x.Removes q) := by
  cases x <;> (unfold Removes; infer_instance)

omit [DecidableEq α] in
/-- What is removed is removed with all that lies below it. -/
theorem Removes.below {x : Edit α} (h : x.Removes p) (hq : p <+: q) : x.Removes q := by
  cases x with
  | delete r => exact List.IsPrefix.trans h hq
  | put r single =>
    obtain ⟨hs, hp, hne, hnot⟩ := h
    have hlt : r.dropLast.length < p.length := by
      have hle := hp.length_le
      have hlen : p.length ≠ r.dropLast.length := fun hl => hne (hp.eq_of_length hl.symm).symm
      omega
    refine ⟨hs, hp.trans hq, fun heq => ?_, fun hr => ?_⟩
    · have := hq.length_le
      rw [heq] at this
      omega
    · rw [List.length_dropLast] at hlt
      exact hnot (List.prefix_of_prefix_length_le hr hq (by omega))

end Edit

def apply (t : PathTree α) (x : Edit α) : PathTree α where
  nodes := t.nodes.filter (fun q => ¬ x.Removes q) ++ x.made
  closed := by
    intro q v hq
    rcases List.mem_append.mp hq with hq | hq
    · rw [List.mem_filter, decide_eq_true_eq] at hq
      refine List.mem_append_left _ (List.mem_filter.mpr ⟨t.closed q v hq.1, ?_⟩)
      exact decide_eq_true fun hr => hq.2 (hr.below (List.prefix_append q [v]))
    · refine List.mem_append_right _ ?_
      rw [Edit.mem_made] at hq ⊢
      cases x with
      | put p single => exact (List.prefix_append q [v]).trans hq
      | delete p => cases hq

def applyAll (t : PathTree α) (xs : List (Edit α)) : PathTree α := xs.foldl apply t

theorem mem_apply {x : Edit α} : q ∈ t.apply x ↔ q ∈ t ∧ ¬ x.Removes q ∨ x.Adds q := by
  show q ∈ t.nodes.filter (fun q => ¬ x.Removes q) ++ x.made ↔ _
  rw [List.mem_append, List.mem_filter, decide_eq_true_eq, Edit.mem_made]
  exact Iff.rfl

/-- What is there stays, if no edit removes it. -/
theorem mem_applyAll_of_spared {xs : List (Edit α)} (h : ∀ x ∈ xs, ¬ x.Removes q) (hq : q ∈ t) : q ∈ t.applyAll xs := by
  induction xs generalizing t with
  | nil => exact hq
  | cons x xs ih =>
    rw [List.forall_mem_cons] at h
    exact ih h.2 (mem_apply.mpr (Or.inl ⟨hq, h.1⟩))

theorem mem_applyAll {xs : List (Edit α)} (h : ∀ x ∈ xs, ∀ y ∈ xs, ∀ q, x.Adds q → ¬ y.Removes q) :
    q ∈ t.applyAll xs ↔ q ∈ t ∧ (∀ x ∈ xs, ¬ x.Removes q) ∨ ∃ x ∈ xs, x.Adds q := by
  induction xs generalizing t with
  | nil => simp [applyAll]
  | cons x xs ih =>
    have hrest := ih (t := t.apply x) fun y hy z hz => h y (List.mem_cons_of_mem x hy) z (List.mem_cons_of_mem x hz)
    rw [show t.applyAll (x :: xs) = (t.apply x).applyAll xs from rfl, hrest, mem_apply]
    simp only [List.forall_mem_cons, List.exists_mem_cons_iff]
    constructor
    · rintro (⟨⟨hq, hx⟩ | hx, hxs⟩ | hxs)
      · exact Or.inl ⟨hq, hx, hxs⟩
      · exact Or.inr (Or.inl hx)
      · exact Or.inr (Or.inr hxs)
    · rintro (⟨hq, hx, hxs⟩ | hx | hxs)
      · exact Or.inl ⟨Or.inl ⟨hq, hx⟩, hxs⟩
      · exact Or.inl ⟨Or.inr hx, fun y hy => h x List.mem_cons_self y (List.mem_cons_of_mem x hy) q hx⟩
      · exact Or.inr hxs

end PathTree

end VyattaRest.Lib
