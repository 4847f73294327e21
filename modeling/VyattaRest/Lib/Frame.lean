/-
  VyattaRest.Lib.Frame — a block of lines, a blank line and a body.

  Each line ends in the two elements `cr` and `lf`, and an empty line ends the block
  (`frame`). Without `cr` in the lines, and without an empty one among them, the block ends at
  the first `cr lf cr lf` (`find_frame`), and what stands on either side of it are the lines and
  the body (`take_frame`, `drop_frame`), whatever the body holds.
-/

import VyattaRest.Lib.Bytes

namespace VyattaRest.Lib

variable {α : Type} [DecidableEq α] {cr lf : α}

def frame (cr lf : α) (lines : List (List α)) (body : List α) : List α :=
  lines.flatMap (· ++ [cr, lf]) ++ [cr, lf] ++ body

/-- A line end with a line behind it is not the end of the block. -/
theorem find_line_end (hne : cr ≠ lf) {b : α} (hb : b ≠ cr) (s : List α) :
    find [cr, lf, cr, lf] (cr :: lf :: b :: s) = (find [cr, lf, cr, lf] (b :: s)).map (· + 2) := by
  have h₁ : [cr, lf, cr, lf].isPrefixOf (cr :: lf :: b :: s) = false := by simp [List.isPrefixOf, Ne.symm hb]
  have h₂ : [cr, lf, cr, lf].isPrefixOf (lf :: b :: s) = false := by simp [List.isPrefixOf, hne]
  rw [find, h₁, find, h₂]
  rcases find [cr, lf, cr, lf] (b :: s) with _ | i <;> rfl

theorem find_frame (hne : cr ≠ lf) (body : List α) : ∀ {lines : List (List α)}, lines ≠ [] → (∀ l ∈ lines, cr ∉ l ∧ l ≠ []) →
    find [cr, lf, cr, lf] (frame cr lf lines body) = some ([cr, lf].intercalate lines).length := by
  intro lines
  induction lines with
  | nil => exact fun h _ => absurd rfl h
  | cons l rest ih =>
    intro _ hlines
    obtain ⟨hl, _⟩ := hlines l List.mem_cons_self
    cases rest with
    | nil =>
      show find _ (l ++ [cr, lf] ++ [] ++ [cr, lf] ++ body) = _
      simp only [List.append_assoc, List.nil_append, find_skip_head hl]
      simp [find, List.isPrefixOf, List.intercalate]
    | cons l' rest =>
      have hrest := ih (List.cons_ne_nil _ _) fun x hx => hlines x (List.mem_cons_of_mem _ hx)
      obtain ⟨hl', hne'⟩ := hlines l' (List.mem_cons_of_mem _ List.mem_cons_self)
      obtain ⟨b, t, rfl⟩ := List.exists_cons_of_ne_nil hne'
      have hb : b ≠ cr := fun e => hl' (e ▸ List.mem_cons_self)
      have hsplit : frame cr lf (l :: (b :: t) :: rest) body = l ++ (cr :: lf :: frame cr lf ((b :: t) :: rest) body) := by
        simp [frame]
      rw [hsplit, find_skip_head hl, show frame cr lf ((b :: t) :: rest) body = b :: _ from rfl, find_line_end hne hb]
      rw [show b :: _ = frame cr lf ((b :: t) :: rest) body from rfl, hrest]
      simp [List.intercalate_cons_cons]
      omega

omit [DecidableEq α] in
theorem frame_eq (body : List α) : ∀ {lines : List (List α)}, lines ≠ [] →
    frame cr lf lines body = [cr, lf].intercalate lines ++ ([cr, lf, cr, lf] ++ body) := by
  intro lines
  induction lines with
  | nil => exact fun h => absurd rfl h
  | cons l rest ih =>
    intro _
    cases rest with
    | nil => simp [frame]
    | cons l' rest =>
      have hrest := ih (List.cons_ne_nil _ _)
      rw [List.intercalate_cons_cons, List.append_assoc, ← hrest]
      simp [frame]

omit [DecidableEq α] in
theorem take_frame {lines : List (List α)} (h : lines ≠ []) (body : List α) :
    (frame cr lf lines body).take ([cr, lf].intercalate lines).length = [cr, lf].intercalate lines := by
  rw [frame_eq body h, List.take_left]

omit [DecidableEq α] in
theorem drop_frame {lines : List (List α)} (h : lines ≠ []) (body : List α) :
    (frame cr lf lines body).drop (([cr, lf].intercalate lines).length + 4) = body := by
  rw [frame_eq body h, ← List.drop_drop, List.drop_left]
  rfl

end VyattaRest.Lib
