/-
  VyattaRest.Lib.Strip — a text without the white space around it.
-/

import VyattaRest.Lib.Bytes

namespace VyattaRest.Lib

def strip (s : Str) : Str := ((s.dropWhile isSpace).reverse.dropWhile isSpace).reverse

/-- The bytes that are no spaces stay. -/
theorem mem_dropWhile_space {s : Str} {b : UInt8} (hb : isSpace b = false) (h : b ∈ s) : b ∈ s.dropWhile isSpace := by
  rw [← List.takeWhile_append_dropWhile (p := isSpace) (l := s), List.mem_append] at h
  rcases h with h | h
  · have := List.mem_takeWhile_imp h
    rw [hb] at this
    cases this
  · exact h

theorem mem_strip_of_mem {s : Str} {b : UInt8} (hb : isSpace b = false) (h : b ∈ s) : b ∈ strip s := by
  rw [strip, List.mem_reverse]
  refine mem_dropWhile_space hb ?_
  rw [List.mem_reverse]
  exact mem_dropWhile_space hb h

theorem mem_of_mem_strip {s : Str} {b : UInt8} (h : b ∈ strip s) : b ∈ s := by
  rw [strip, List.mem_reverse] at h
  have h := (List.dropWhile_suffix isSpace).subset h
  rw [List.mem_reverse] at h
  exact (List.dropWhile_suffix isSpace).subset h

theorem strip_cons {b : UInt8} (hb : isSpace b = true) (s : Str) : strip (b :: s) = strip s := by
  rw [strip, List.dropWhile_cons_of_pos hb, strip]

theorem strip_concat {b : UInt8} (hb : isSpace b = true) (s : Str) : strip (s ++ [b]) = strip s := by
  rw [strip, strip, List.dropWhile_append]
  by_cases h : (s.dropWhile isSpace).isEmpty = true
  · rw [if_pos h, List.isEmpty_iff.mp h]
    simp [List.dropWhile, hb]
  · rw [if_neg h, List.reverse_append, List.reverse_singleton, List.singleton_append, List.dropWhile_cons_of_pos hb]

/-- A byte in front that is no space makes the text longer. -/
theorem length_strip_lt {b : UInt8} (hb : isSpace b = false) (s : Str) : (strip s).length < (strip (b :: s)).length := by
  have hmono : ∀ u v : Str, (u.dropWhile isSpace).length ≤ ((u ++ v).dropWhile isSpace).length := by
    intro u v
    rw [List.dropWhile_append]
    by_cases h : (u.dropWhile isSpace).isEmpty = true
    · rw [List.isEmpty_iff.mp h]
      exact Nat.zero_le _
    · rw [if_neg h, List.length_append]
      omega
  have hinner : (strip s).length ≤ (s.reverse.dropWhile isSpace).length := by
    obtain ⟨p, hp⟩ := List.dropWhile_suffix isSpace (l := s)
    have h := hmono (s.dropWhile isSpace).reverse p.reverse
    rw [← List.reverse_append, hp] at h
    rwa [strip, List.length_reverse]
  have houter : strip (b :: s) = b :: (s.reverse.dropWhile isSpace).reverse := by
    rw [strip, List.dropWhile_cons_of_neg (by rw [hb]; simp), List.reverse_cons, List.dropWhile_append]
    by_cases h : (s.reverse.dropWhile isSpace).isEmpty = true
    · rw [if_pos h, List.isEmpty_iff.mp h]
      simp [List.dropWhile, hb]
    · rw [if_neg h]
      simp
  rw [houter, List.length_cons, List.length_reverse]
  omega

end VyattaRest.Lib
