/-
  VyattaRest.Lib.Lines — reading a text line by line through a buffer.

  `reads x n` are the buffers that `fgets` fills one after another: up to the next `x`, which
  stays, or `n` elements. A text that ends in `x` is read without regard to what follows
  (`reads_append`), a line that fits is one buffer (`reads_fits`), and a longer one leaves its
  first `n` elements in a buffer of their own (`reads_long`). A text never needs a buffer
  longer than itself, so `lines x` reads it without a limit.
-/

import VyattaRest.Lib.Split

namespace VyattaRest.Lib

variable {α : Type} [DecidableEq α]

/-- `room` is what the buffer `cur` still takes. -/
def readsFrom (x : α) (n : Nat) : Nat → List α → List α → List (List α)
  | _, cur, [] => if cur = [] then [] else [cur]
  | room, cur, b :: s =>
    if b = x ∨ room ≤ 1 then (cur ++ [b]) :: readsFrom x n n [] s else readsFrom x n (room - 1) (cur ++ [b]) s

def reads (x : α) (n : Nat) (s : List α) : List (List α) := readsFrom x n n [] s

def lines (x : α) (s : List α) : List (List α) := reads x (s.length + 1) s

variable {x : α} {n : Nat}

theorem readsFrom_append (a s : List α) : ∀ (room : Nat) (cur : List α),
    readsFrom x n room cur (a ++ x :: s) = readsFrom x n room cur (a ++ [x]) ++ reads x n s := by
  induction a with
  | nil =>
    intro room cur
    simp [readsFrom, reads]
  | cons b a ih =>
    intro room cur
    rw [List.cons_append, List.cons_append, readsFrom, readsFrom]
    split
    · rw [ih, List.cons_append]
    · exact ih _ _

theorem reads_append (a s : List α) : reads x n (a ++ x :: s) = reads x n (a ++ [x]) ++ reads x n s :=
  readsFrom_append a s n []

theorem readsFrom_fits {a : List α} (hx : x ∉ a) (s : List α) : ∀ (room : Nat) (cur : List α), a.length < room →
    readsFrom x n room cur (a ++ x :: s) = (cur ++ a ++ [x]) :: reads x n s := by
  induction a with
  | nil =>
    intro room cur _
    simp [readsFrom, reads]
  | cons b a ih =>
    intro room cur h
    rw [List.mem_cons, not_or] at hx
    rw [List.length_cons] at h
    rw [List.cons_append, readsFrom, if_neg (by rintro (rfl | h') <;> [exact hx.1 rfl; omega]),
      ih hx.2 _ _ (by omega)]
    simp

theorem reads_fits {a : List α} (hx : x ∉ a) (h : a.length < n) (s : List α) :
    reads x n (a ++ x :: s) = (a ++ [x]) :: reads x n s :=
  readsFrom_fits hx s n [] h

theorem readsFrom_long {a : List α} (hx : x ∉ a) (s : List α) : ∀ (room : Nat) (cur : List α), a.length = room →
    0 < room → readsFrom x n room cur (a ++ s) = (cur ++ a) :: reads x n s := by
  induction a with
  | nil => intro room cur h hpos; rw [List.length_nil] at h; omega
  | cons b a ih =>
    intro room cur h _
    rw [List.mem_cons, not_or] at hx
    rw [List.length_cons] at h
    rw [List.cons_append, readsFrom]
    by_cases hroom : room ≤ 1
    · have ha : a = [] := List.length_eq_zero_iff.mp (by omega)
      subst ha
      rw [if_pos (Or.inr hroom)]
      rfl
    · rw [if_neg (by rintro (rfl | h') <;> [exact hx.1 rfl; omega]), ih hx.2 _ _ (by omega) (by omega)]
      simp

/-- A line that does not fit. -/
theorem reads_long {a : List α} (hx : x ∉ a) (hn : 0 < n) (h : n ≤ a.length) (s : List α) :
    reads x n (a ++ s) = a.take n :: reads x n (a.drop n ++ s) := by
  have htake : x ∉ a.take n := fun hm => hx (List.mem_of_mem_take hm)
  calc reads x n (a ++ s) = reads x n (a.take n ++ (a.drop n ++ s)) := by
        rw [← List.append_assoc, List.take_append_drop]
    _ = a.take n :: reads x n (a.drop n ++ s) :=
        readsFrom_long htake _ n [] (by rw [List.length_take]; omega) hn

theorem reads_flatten {ls : List (List α)} (h : ∀ l ∈ ls, ∃ a, l = a ++ [x]) :
    reads x n ls.flatten = ls.flatMap (reads x n) := by
  induction ls with
  | nil => rfl
  | cons l ls ih =>
    obtain ⟨a, rfl⟩ := h l List.mem_cons_self
    rw [List.flatten_cons, List.append_assoc, List.singleton_append, reads_append,
      ih fun l hl => h l (List.mem_cons_of_mem _ hl), List.flatMap_cons]

theorem reads_line {a : List α} (hx : x ∉ a) (h : a.length < n) : reads x n (a ++ [x]) = [a ++ [x]] := by
  rw [reads_fits hx h]
  rfl

theorem lines_flatten {ls : List (List α)} (h : ∀ l ∈ ls, ∃ a, l = a ++ [x] ∧ x ∉ a) : lines x ls.flatten = ls := by
  have hread : ∀ n, (∀ l ∈ ls, l.length ≤ n) → ls.flatMap (reads x n) = ls := by
    intro n hn
    induction ls with
    | nil => rfl
    | cons l ls ih =>
      obtain ⟨a, rfl, hx⟩ := h l List.mem_cons_self
      have hle := hn _ List.mem_cons_self
      rw [List.length_append, List.length_singleton] at hle
      rw [List.flatMap_cons, reads_line hx (by omega),
        ih (fun l hl => h l (List.mem_cons_of_mem _ hl)) fun l hl => hn l (List.mem_cons_of_mem _ hl)]
      rfl
  have hlen : ∀ l ∈ ls, l.length ≤ ls.flatten.length + 1 := by
    intro l hl
    have := (List.sublist_flatten_of_mem hl).length_le
    omega
  have hends : ∀ l ∈ ls, ∃ a, l = a ++ [x] := by
    intro l hl
    obtain ⟨a, ha, -⟩ := h l hl
    exact ⟨a, ha⟩
  rw [lines, reads_flatten hends, hread _ hlen]

/-- A line holds elements of the text. -/
theorem mem_lines {s l : List α} (h : l ∈ lines x s) : ∀ b ∈ l, b ∈ s := by
  have hgen : ∀ (n : Nat) (t : List α) (room : Nat) (cur : List α), ∀ l ∈ readsFrom x n room cur t, ∀ b ∈ l, b ∈ cur ++ t := by
    intro n t
    induction t with
    | nil =>
      intro room cur l hl b hb
      rw [readsFrom] at hl
      split at hl
      · cases hl
      · rw [List.mem_singleton.mp hl] at hb
        simpa using hb
    | cons c t ih =>
      intro room cur l hl b hb
      rw [readsFrom] at hl
      split at hl
      · rcases List.mem_cons.mp hl with rfl | hl
        · simp only [List.mem_append, List.mem_cons, List.not_mem_nil, or_false] at hb ⊢
          tauto
        · have := ih n [] l hl b hb
          simp only [List.nil_append] at this
          simp [this]
      · have := ih (room - 1) (cur ++ [c]) l hl b hb
        simpa [List.append_assoc] using this
  exact fun b hb => by simpa using hgen (s.length + 1) s (s.length + 1) [] l h b hb

end VyattaRest.Lib
