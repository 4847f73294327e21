/-
  VyattaRest.Lib.OrdMap — ordered maps with the operations of `std::map`.

  A map is its list of entries in key order, each key once; the order is a field, so a
  map out of order cannot be built. `insert` keeps an entry that is already there, as
  `std::map::insert` does. What the operations mean is said through `find`
  (`find_insert`, `find_erase`, `find_update`); `mem_entries` ties the entries that an
  iterator visits to it, and `filter_congr` the part of them that a filter lets through.
-/

import Mathlib.Data.List.Basic
import Mathlib.Data.List.Sort

namespace VyattaRest.Lib

/-! ## Lists of entries -/

section Entries

variable {κ ν : Type} [BEq κ] [LawfulBEq κ] [DecidableEq κ]

theorem lookup_cons_eq (p : κ × ν) (l : List (κ × ν)) (k : κ) :
    (p :: l).lookup k = if k = p.1 then some p.2 else l.lookup k := by
  rw [List.lookup_cons]
  by_cases e : k = p.1
  · simp [e]
  · simp [e, beq_eq_false_iff_ne.mpr e]

omit [DecidableEq κ] in
/-- The keys of a list are those that a lookup finds. -/
theorem mem_keys_iff {l : List (κ × ν)} {k : κ} : k ∈ l.map Prod.fst ↔ ∃ v, l.lookup k = some v := by
  rw [← Option.isSome_iff_exists, List.lookup_isSome_iff, List.mem_map]
  exact exists_congr fun p => and_congr_right fun _ => ⟨fun h => beq_iff_eq.mpr h.symm, fun h => (beq_iff_eq.mp h).symm⟩

omit [DecidableEq κ] in
theorem mem_of_lookup {l : List (κ × ν)} {k : κ} {v : ν} (h : l.lookup k = some v) : (k, v) ∈ l := by
  obtain ⟨l₁, l₂, rfl, -⟩ := List.lookup_eq_some_iff.mp h
  exact List.mem_append_right _ List.mem_cons_self

theorem lookup_filter (p : κ → Bool) (l : List (κ × ν)) (k : κ) :
    (l.filter fun e => p e.1).lookup k = if p k = true then l.lookup k else none := by
  induction l with
  | nil => exact (ite_self none).symm
  | cons e l ih =>
    rw [List.filter_cons, lookup_cons_eq]
    by_cases he : p e.1 = true
    · rw [if_pos he, lookup_cons_eq, ih]
      by_cases hk : k = e.1
      · rw [if_pos hk, if_pos hk, if_pos (hk ▸ he)]
      · rw [if_neg hk, if_neg hk]
    · rw [if_neg he, ih]
      by_cases hk : k = e.1
      · rw [hk, if_neg he, if_neg he]
      · rw [if_neg hk]

end Entries

structure OrdMap (κ ν : Type) [LT κ] where
  entries : List (κ × ν)
  sorted : entries.Pairwise fun p q => p.1 < q.1

namespace OrdMap

variable {κ ν : Type} [LT κ] [DecidableLT κ] [DecidableEq κ]

def empty : OrdMap κ ν := ⟨[], List.Pairwise.nil⟩

def find (m : OrdMap κ ν) (k : κ) : Option ν := m.entries.lookup k

def insertEntry (k : κ) (v : ν) : List (κ × ν) → List (κ × ν)
  | [] => [(k, v)]
  | p :: r => if k < p.1 then (k, v) :: p :: r else if k = p.1 then p :: r else p :: insertEntry k v r

theorem mem_insertEntry {k : κ} {v : ν} {l : List (κ × ν)} {p : κ × ν} (h : p ∈ insertEntry k v l) :
    p = (k, v) ∨ p ∈ l := by
  induction l with
  | nil => exact Or.inl (List.mem_singleton.mp h)
  | cons q r ih =>
    unfold insertEntry at h
    split at h
    · exact (List.mem_cons.mp h)
    · split at h
      · exact Or.inr h
      · rcases List.mem_cons.mp h with h | h
        · exact Or.inr (h ▸ List.mem_cons_self)
        · exact (ih h).imp_right (List.mem_cons_of_mem _)

section Insert

variable [Trans (fun a b : κ => a < b) (fun a b => a < b) (fun a b => a < b)] [Std.Trichotomous (fun a b : κ => a < b)]

theorem insertEntry_sorted (k : κ) (v : ν) {l : List (κ × ν)} (h : l.Pairwise fun p q => p.1 < q.1) :
    (insertEntry k v l).Pairwise fun p q => p.1 < q.1 := by
  induction l with
  | nil => exact List.pairwise_singleton _ _
  | cons q r ih =>
    obtain ⟨hq, hr⟩ := List.pairwise_cons.mp h
    unfold insertEntry
    split
    · rename_i hlt
      refine List.pairwise_cons.mpr ⟨fun p hp => ?_, h⟩
      rcases List.mem_cons.mp hp with rfl | hp
      · exact hlt
      · exact Std.lt_trans hlt (hq p hp)
    · split
      · exact h
      · rename_i hn hne
        refine List.pairwise_cons.mpr ⟨fun p hp => ?_, ih hr⟩
        rcases mem_insertEntry hp with rfl | hp
        · rcases Std.lt_trichotomy k q.1 with h' | h' | h'
          · exact absurd h' hn
          · exact absurd h' hne
          · exact h'
        · exact hq p hp

def insert (m : OrdMap κ ν) (k : κ) (v : ν) : OrdMap κ ν := ⟨insertEntry k v m.entries, insertEntry_sorted k v m.sorted⟩

end Insert

def erase (m : OrdMap κ ν) (k : κ) : OrdMap κ ν := ⟨m.entries.filter (·.1 ≠ k), m.sorted.filter _⟩

/-- Assigning through an iterator: the entry of `k`, if there is one. -/
def update (m : OrdMap κ ν) (k : κ) (f : ν → ν) : OrdMap κ ν :=
  ⟨m.entries.map fun p => (p.1, if p.1 = k then f p.2 else p.2), List.pairwise_map.mpr m.sorted⟩

/-! ## What the operations mean -/

variable [Std.Irrefl (fun a b : κ => a < b)]

omit [DecidableLT κ] in
theorem mem_entries {m : OrdMap κ ν} {k : κ} {v : ν} : (k, v) ∈ m.entries ↔ m.find k = some v := by
  obtain ⟨l, hl⟩ := m
  show (k, v) ∈ l ↔ l.lookup k = some v
  induction l with
  | nil => simp
  | cons q r ih =>
    obtain ⟨k', v'⟩ := q
    obtain ⟨hq, hr⟩ := List.pairwise_cons.mp hl
    rw [lookup_cons_eq, List.mem_cons, Prod.mk.injEq]
    by_cases e : k = k'
    · subst e
      have hnot : (k, v) ∉ r := fun hm => Std.lt_irrefl (hq (k, v) hm)
      simp [hnot, eq_comm]
    · simp only [ih hr, e, false_and, false_or, if_false]

omit [DecidableLT κ] in
/-- The entries of one kind are visited in the order of their keys, so maps that hold the same
    ones visit the same list. -/
theorem filter_congr [Trans (fun a b : κ => a < b) (fun a b => a < b) (fun a b => a < b)] {m m' : OrdMap κ ν}
    {p : κ × ν → Bool} (h : ∀ k v, p (k, v) = true → (m.find k = some v ↔ m'.find k = some v)) :
    m.entries.filter p = m'.entries.filter p := by
  have : Std.Irrefl fun a b : κ × ν => a.1 < b.1 := ⟨fun _ hlt => Std.lt_irrefl hlt⟩
  have : Std.Antisymm fun a b : κ × ν => a.1 < b.1 := ⟨fun _ _ hlt hgt => absurd (Std.lt_trans hlt hgt) Std.lt_irrefl⟩
  refine (m.sorted.filter p).eq_of_mem_iff (m'.sorted.filter p) fun q => ?_
  obtain ⟨k, v⟩ := q
  rw [List.mem_filter, List.mem_filter, mem_entries, mem_entries]
  exact and_congr_left fun hp => h k v hp

omit [DecidableLT κ] in
theorem find_erase (m : OrdMap κ ν) (k k' : κ) : (m.erase k).find k' = if k' = k then none else m.find k' := by
  refine Option.ext fun v => ?_
  rw [← mem_entries, erase, List.mem_filter]
  by_cases e : k' = k
  · simp [e]
  · simp [e, mem_entries]

omit [DecidableLT κ] in
theorem find_update (m : OrdMap κ ν) (k k' : κ) (f : ν → ν) :
    (m.update k f).find k' = if k' = k then (m.find k).map f else m.find k' := by
  refine Option.ext fun v => ?_
  rw [← mem_entries, update, List.mem_map]
  constructor
  · intro ⟨p, hp, he⟩
    obtain ⟨a, b⟩ := p
    rw [mem_entries] at hp
    simp only [Prod.mk.injEq] at he
    obtain ⟨rfl, rfl⟩ := he
    by_cases e : a = k
    · subst e; simp [hp]
    · simp [e, hp]
  · intro h
    by_cases e : k' = k
    · subst e
      rw [if_pos rfl, Option.map_eq_some_iff] at h
      obtain ⟨w, hw, rfl⟩ := h
      exact ⟨(k', w), mem_entries.mpr hw, by simp⟩
    · rw [if_neg e] at h
      exact ⟨(k', v), mem_entries.mpr h, by simp [e]⟩

variable [Trans (fun a b : κ => a < b) (fun a b => a < b) (fun a b => a < b)] [Std.Trichotomous (fun a b : κ => a < b)]

/-- An entry that is there stays, and others are not touched. -/
theorem find_insert (m : OrdMap κ ν) (k k' : κ) (v : ν) :
    (m.insert k v).find k' = if k' = k then some ((m.find k).getD v) else m.find k' := by
  obtain ⟨l, hl⟩ := m
  show (insertEntry k v l).lookup k' = if k' = k then some ((l.lookup k).getD v) else l.lookup k'
  induction l with
  | nil => by_cases e : k' = k <;> simp [insertEntry, lookup_cons_eq, e]
  | cons q r ih =>
    obtain ⟨a, b⟩ := q
    obtain ⟨hq, hr⟩ := List.pairwise_cons.mp hl
    have ih := ih hr
    unfold insertEntry
    split
    · rename_i hlt
      have hka : k ≠ a := fun e => Std.lt_irrefl (e ▸ hlt)
      have hkr : r.lookup k = none := by
        refine Option.eq_none_iff_forall_ne_some.mpr fun w hw => ?_
        have hm : (k, w) ∈ r := (mem_entries (m := ⟨r, hr⟩)).mpr hw
        exact Std.lt_irrefl (Std.lt_trans hlt (hq _ hm))
      by_cases e : k' = k
      · simp [lookup_cons_eq, e, hka, hkr]
      · simp [lookup_cons_eq, e]
    · split
      · rename_i he
        simp only at he
        subst he
        by_cases e : k' = k <;> simp [lookup_cons_eq, e]
      · rename_i hne
        simp only at hne
        rw [lookup_cons_eq, ih]
        by_cases e : k' = a
        · subst e
          simp [lookup_cons_eq, Ne.symm hne]
        · by_cases e' : k' = k <;> simp [lookup_cons_eq, e, e', hne]

end OrdMap

end VyattaRest.Lib
