/-
  VyattaRest.Lib.Pages — a list read a page at a time: pages of one width, taken at offsets
  that are one step apart.

  Step and width need not agree. Pages of the width of the step make up the list; a wider
  step leaves elements out, and a narrower one gives some of them twice.
-/

import Mathlib.Data.List.Basic
import Mathlib.Tactic.Linarith

namespace VyattaRest.Lib

variable {α : Type}

/-- The page of a list at an offset. -/
def page (width : Nat) (d : List α) (o : Nat) : List α := (d.drop o).take width

/-- As many pages, from an offset on. -/
def pagesFrom (step width : Nat) (d : List α) : Nat → Nat → List (List α)
  | 0, _ => []
  | n + 1, o => page width d o :: pagesFrom step width d n (o + step)

/-- Where the `i`-th of these pages begins when they stand one behind the other. -/
def laidAt (step width length o : Nat) : Nat → Nat
  | 0 => 0
  | i + 1 => laidAt step width length o i + min width (length - (o + i * step))

variable {step width : Nat} {d : List α}

theorem length_page (width : Nat) (d : List α) (o : Nat) : (page width d o).length = min width (d.length - o) := by
  simp [page]

theorem page_of_le {o : Nat} (h : d.length ≤ o + width) : page width d o = d.drop o :=
  List.take_of_length_le (by rw [List.length_drop]; omega)

theorem length_pagesFrom : ∀ (n o : Nat), (pagesFrom step width d n o).length = n := by
  intro n
  induction n with
  | zero => intro o; rfl
  | succ n ih => intro o; rw [pagesFrom, List.length_cons, ih]

theorem mem_pagesFrom {p : List α} : ∀ {n o : Nat}, p ∈ pagesFrom step width d n o ↔
    ∃ i < n, p = page width d (o + i * step) := by
  intro n
  induction n with
  | zero => intro o; simp [pagesFrom]
  | succ n ih =>
    intro o
    rw [pagesFrom, List.mem_cons, ih]
    constructor
    · rintro (rfl | ⟨i, hi, rfl⟩)
      · exact ⟨0, by omega, by rw [Nat.zero_mul, Nat.add_zero]⟩
      · exact ⟨i + 1, by omega, by rw [Nat.succ_mul]; congr 1; omega⟩
    · rintro ⟨_ | i, hi, rfl⟩
      · exact Or.inl (by rw [Nat.zero_mul, Nat.add_zero])
      · exact Or.inr ⟨i, by omega, by rw [Nat.succ_mul]; congr 1; omega⟩

theorem getElem?_pagesFrom : ∀ {n o i : Nat}, i < n → (pagesFrom step width d n o)[i]? = some (page width d (o + i * step)) := by
  intro n
  induction n with
  | zero => intro o i h; omega
  | succ n ih =>
    intro o i h
    rcases i with _ | i
    · simp [pagesFrom]
    · rw [pagesFrom, List.getElem?_cons_succ, ih (by omega), Nat.succ_mul]
      congr 2
      omega

variable (step width d)

theorem pagesFrom_append (k : Nat) : ∀ (n o : Nat), pagesFrom step width d (n + k) o =
    pagesFrom step width d n o ++ pagesFrom step width d k (o + n * step) := by
  intro n
  induction n with
  | zero => intro o; simp [pagesFrom]
  | succ n ih =>
    intro o
    rw [show n + 1 + k = n + k + 1 by omega, pagesFrom, pagesFrom, ih, Nat.succ_mul, List.cons_append]
    congr 3
    omega

theorem pagesFrom_snoc (n o : Nat) : pagesFrom step width d (n + 1) o =
    pagesFrom step width d n o ++ [page width d (o + n * step)] := by
  rw [Nat.add_comm n 1, Nat.add_comm 1 n, pagesFrom_append]
  rfl

theorem length_flatten_pagesFrom (n o : Nat) :
    (pagesFrom step width d n o).flatten.length = laidAt step width d.length o n := by
  induction n with
  | zero => rfl
  | succ n ih =>
    rw [pagesFrom_snoc, List.flatten_append, List.length_append, ih, List.flatten_singleton, length_page]
    rfl

/-- The pages, one behind the other, begin a text when each of them is what the text has at its place. -/
theorem flatten_prefix_iff (e : List α) (n o : Nat) : (pagesFrom step width d n o).flatten <+: e ↔
    ∀ i < n, page width d (o + i * step) =
      page (min width (d.length - (o + i * step))) e (laidAt step width d.length o i) := by
  induction n with
  | zero => simp [pagesFrom]
  | succ n ih =>
    have hstep : (pagesFrom step width d (n + 1) o).flatten <+: e ↔ (pagesFrom step width d n o).flatten <+: e ∧
        page width d (o + n * step) =
          page (min width (d.length - (o + n * step))) e (laidAt step width d.length o n) := by
      rw [pagesFrom_snoc, List.flatten_append, List.flatten_singleton, page.eq_1 _ e, ← length_flatten_pagesFrom,
        ← length_page, ← List.prefix_iff_eq_take]
      constructor
      · intro h
        obtain ⟨r, rfl⟩ := (List.prefix_append _ _).trans h
        rw [List.prefix_append_right_inj] at h
        exact ⟨List.prefix_append _ _, by rwa [List.drop_left]⟩
      · rintro ⟨⟨r, rfl⟩, h⟩
        rw [List.drop_left] at h
        exact (List.prefix_append_right_inj _).mpr h
    rw [hstep, ih]
    constructor
    · rintro ⟨hall, hn⟩ i hi
      rcases Nat.lt_or_eq_of_le (Nat.le_of_lt_succ hi) with hi | rfl
      · exact hall i hi
      · exact hn
    · exact fun hall => ⟨fun i hi => hall i (by omega), hall n (by omega)⟩

/-- And they are the text when they are also as long. -/
theorem flatten_pagesFrom_iff (e : List α) (n o : Nat) : (pagesFrom step width d n o).flatten = e ↔
    laidAt step width d.length o n = e.length ∧ ∀ i < n, page width d (o + i * step) =
      page (min width (d.length - (o + i * step))) e (laidAt step width d.length o i) := by
  rw [← flatten_prefix_iff, ← length_flatten_pagesFrom step width d n o]
  constructor
  · rintro rfl
    exact ⟨rfl, List.prefix_refl _⟩
  · exact fun ⟨hlen, hpre⟩ => hpre.eq_of_length hlen

/-- Pages that begin inside the list are not empty. -/
theorem pages_ne_nil {n o : Nat} (hw : 0 < width) (hlast : n * step < d.length - o) {p : List α}
    (hp : p ∈ pagesFrom step width d (n + 1) o) : p ≠ [] := by
  obtain ⟨i, hi, rfl⟩ := mem_pagesFrom.mp hp
  have hmul : i * step ≤ n * step := Nat.mul_le_mul_right _ (by omega)
  rw [← List.length_pos_iff, length_page]
  omega

/-- Pages of the width of the step. -/
theorem flatten_pagesFrom_self : ∀ (n o : Nat), (pagesFrom width width d n o).flatten = (d.drop o).take (n * width) := by
  intro n
  induction n with
  | zero => intro o; simp [pagesFrom]
  | succ n ih =>
    intro o
    rw [pagesFrom, List.flatten_cons, ih, page, Nat.succ_mul, Nat.add_comm (n * width), List.take_add, List.drop_drop]

/-- A wider step: nothing comes twice. -/
theorem length_flatten_le (h : width ≤ step) : ∀ (n o : Nat), (pagesFrom step width d n o).flatten.length ≤ d.length - o := by
  intro n
  induction n with
  | zero => intro o; simp [pagesFrom]
  | succ n ih =>
    intro o
    have := ih (o + step)
    rw [pagesFrom, List.flatten_cons, List.length_append, length_page]
    omega

/-- A narrower step: nothing is left out, if the last page comes to the end. -/
theorem le_length_flatten (h : step ≤ width) : ∀ (n o : Nat), d.length ≤ o + n * step + width →
    d.length - o ≤ (pagesFrom step width d (n + 1) o).flatten.length := by
  intro n
  induction n with
  | zero =>
    intro o hle
    rw [Nat.zero_mul] at hle
    simp only [pagesFrom, List.flatten_cons, List.flatten_nil, List.append_nil, length_page]
    omega
  | succ n ih =>
    intro o hle
    have := ih (o + step) (by rw [Nat.succ_mul] at hle; omega)
    rw [pagesFrom, List.flatten_cons, List.length_append, length_page]
    omega

/-- Pages that all lie inside the list. -/
theorem length_flatten_full : ∀ (n o : Nat), o + n * step + width ≤ d.length →
    (pagesFrom step width d (n + 1) o).flatten.length = (n + 1) * width := by
  intro n
  induction n with
  | zero =>
    intro o h
    simp only [pagesFrom, List.flatten_cons, List.flatten_nil, List.append_nil, length_page]
    omega
  | succ n ih =>
    intro o h
    have := ih (o + step) (by rw [Nat.succ_mul] at h; omega)
    rw [pagesFrom, List.flatten_cons, List.length_append, length_page, this, Nat.succ_mul (n + 1)]
    rw [Nat.succ_mul] at h
    omega

/-- What they make up, read with the step that is their width. -/
theorem page_flatten_full : ∀ (n o i : Nat), o + n * step + width ≤ d.length → i < n + 1 →
    page width (pagesFrom step width d (n + 1) o).flatten (i * width) = page width d (o + i * step) := by
  intro n o i h hi
  have hsplit := pagesFrom_append step width d (n + 1 - i) i o
  rw [show i + (n + 1 - i) = n + 1 by omega] at hsplit
  have hle : i * step ≤ n * step := Nat.mul_le_mul_right step (by omega)
  have hbefore : (pagesFrom step width d i o).flatten.length = i * width := by
    rcases i with _ | i
    · simp [pagesFrom]
    · refine length_flatten_full step width d i o ?_
      rw [Nat.succ_mul] at hle
      omega
  have hlen : (page width d (o + i * step)).length = width := by
    rw [length_page]
    omega
  obtain ⟨k, hk⟩ : ∃ k, n + 1 - i = k + 1 := ⟨n - i, by omega⟩
  rw [hsplit, hk, pagesFrom, List.flatten_append, List.flatten_cons]
  show List.take width (List.drop (i * width) _) = _
  rw [← hbefore, List.drop_left]
  exact List.take_left' hlen

end VyattaRest.Lib
