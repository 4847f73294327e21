/-
  VyattaRest.Lib.Bytes — byte strings and leftmost substring search, as C and C++
  have them.

  A string is a list of bytes. `find` is the leftmost occurrence (`std::string::find`
  from the start), `substr` the clamped slice (`std::string::substr` at a position
  inside the string), `cstr` what a reader of a NUL-terminated buffer sees, `subSz`
  subtraction of `size_t`s.

  A tag is a pattern whose first byte does not occur again in it (`Tag`): `<user>`,
  `%3A`. An occurrence of a tag never starts inside one text and ends in the next one
  when the next one starts with the tag's own first byte, so a search for a tag over a
  concatenation goes text by text (`find_append_tag`, `find_skip`, `infix_append_tag`).
-/

import Mathlib.Algebra.Group.Int.Defs
import Mathlib.Algebra.Group.Nat.Defs
import Mathlib.Data.List.Infix
import Mathlib.Data.List.TakeWhile
import Mathlib.Order.Basic

namespace VyattaRest.Lib

abbrev Str := List UInt8

/-- The bytes of a literal. -/
def str (s : String) : Str := s.toByteArray.data.toList

instance lawfulBEqStr : LawfulBEq Str := inferInstance

instance transStr : Trans (fun a b : Str => a < b) (fun a b => a < b) (fun a b => a < b) := inferInstance

instance trichotomousStr : Std.Trichotomous (fun a b : Str => a < b) := inferInstance

/-- A statement about the bytes of a text is decided on the text, not on all bytes there are. -/
instance (priority := high) decidableForallByte (s : Str) (p : UInt8 → Prop) [DecidablePred p] : Decidable (∀ b ∈ s, p b) :=
  List.decidableBAll p s

instance (priority := high) decidableExistsByte (s : Str) (p : UInt8 → Prop) [DecidablePred p] : Decidable (∃ b ∈ s, p b) :=
  List.decidableBEx p s

/-- `isspace` of the C locale, and what Perl's `split ' '` splits at. -/
def isSpace (b : UInt8) : Bool := b == 32 || (9 ≤ b && b ≤ 13)

/-! ## Searching -/

section Search

variable {α : Type} [DecidableEq α]

/-- The index of the leftmost occurrence of `pat`. -/
def find (pat : List α) : List α → Option Nat
  | [] => if pat = [] then some 0 else none
  | b :: r => if pat.isPrefixOf (b :: r) then some 0 else (find pat r).map (· + 1)

/-- The leftmost occurrence at or after `i`. -/
def findFrom (pat s : List α) (i : Nat) : Option Nat :=
  if i ≤ s.length then (find pat (s.drop i)).map (· + i) else none

def contains (s pat : List α) : Bool := (find pat s).isSome

theorem find_eq_none_iff {pat s : List α} : find pat s = none ↔ ¬ pat <:+: s := by
  induction s with
  | nil => simp [find]
  | cons b r ih =>
    simp only [find, List.infix_cons_iff]
    by_cases h : pat.isPrefixOf (b :: r) = true
    · simp only [h, if_true, reduceCtorEq, false_iff, not_not]
      exact Or.inl (List.isPrefixOf_iff_prefix.mp h)
    · simp only [h, if_false, Bool.false_eq_true, Option.map_eq_none_iff, ih, not_or]
      exact ⟨fun h' => ⟨fun hp => h (List.isPrefixOf_iff_prefix.mpr hp), h'⟩, fun h' => h'.2⟩

theorem contains_iff {pat s : List α} : contains s pat = true ↔ pat <:+: s := by
  rw [contains, Option.isSome_iff_ne_none, ne_eq, find_eq_none_iff, not_not]

/-- What `find` returns splits the string at the occurrence. -/
theorem find_split {pat s : List α} {i : Nat} (h : find pat s = some i) :
    ∃ a b, s = a ++ pat ++ b ∧ a.length = i := by
  induction s generalizing i with
  | nil =>
    simp only [find] at h
    split at h
    · rename_i hp; subst hp; cases h; exact ⟨[], [], rfl, rfl⟩
    · cases h
  | cons b r ih =>
    simp only [find] at h
    split at h
    · rename_i hp
      cases h
      obtain ⟨t, ht⟩ := List.isPrefixOf_iff_prefix.mp hp
      exact ⟨[], t, by simpa using ht.symm, rfl⟩
    · obtain ⟨j, hj, rfl⟩ := Option.map_eq_some_iff.mp h
      obtain ⟨x, y, hxy, hx⟩ := ih hj
      exact ⟨b :: x, y, by simp [hxy], by simp [hx]⟩

theorem find_le {pat s : List α} {i : Nat} (h : find pat s = some i) : i + pat.length ≤ s.length := by
  obtain ⟨a, b, rfl, rfl⟩ := find_split h
  simp only [List.length_append]; omega

/-- No occurrence lies left of what `find` returns. -/
theorem find_le_of_split {pat s : List α} {i : Nat} (h : find pat s = some i) {a b : List α}
    (hs : s = a ++ pat ++ b) : i ≤ a.length := by
  induction s generalizing i a with
  | nil =>
    have hp : pat = [] := by
      have := congrArg List.length hs
      exact List.eq_nil_of_length_eq_zero (by simp at this; omega)
    simp [find, hp] at h; omega
  | cons c r ih =>
    simp only [find] at h
    split at h
    · cases h; omega
    · rename_i hp
      obtain ⟨j, hj, rfl⟩ := Option.map_eq_some_iff.mp h
      rcases a with _ | ⟨x, a⟩
      · exact absurd (List.isPrefixOf_iff_prefix.mpr ⟨b, by simpa using hs.symm⟩) hp
      · simp only [List.cons_append, List.cons.injEq] at hs
        have := ih hj hs.2
        simp only [List.length_cons]; omega

/-- The part before the leftmost occurrence has none. -/
theorem not_infix_take_of_find {pat s : List α} {i : Nat} (hp : pat ≠ []) (h : find pat s = some i) :
    ¬ pat <:+: s.take i := by
  rintro ⟨a, b, hab⟩
  have hs : s = a ++ pat ++ (b ++ s.drop i) := by
    rw [← List.append_assoc, hab, List.take_append_drop]
  have h1 := find_le_of_split h hs
  have h2 := congrArg List.length hab
  have h3 := List.length_pos_iff.mpr hp
  simp only [List.length_append, List.length_take] at h2
  omega

/-- A text without the first element of a pattern is skipped. -/
theorem find_skip_head {c : α} {p u : List α} (hu : c ∉ u) (s : List α) :
    find (c :: p) (u ++ s) = (find (c :: p) s).map (· + u.length) := by
  induction u with
  | nil => simp
  | cons b u ih =>
    simp only [List.mem_cons, not_or] at hu
    have hno : (c :: p).isPrefixOf (b :: (u ++ s)) = false := by simp [List.isPrefixOf, hu.1]
    rw [List.cons_append, find, hno, ih hu.2]
    cases find (c :: p) s <;> simp [Nat.add_assoc]

/-! ### Patterns whose first byte does not come back -/

/-- `c` starts the pattern and occurs nowhere else in it. -/
def Tag (pat : List α) (c : α) : Prop := ∃ p, pat = c :: p ∧ c ∉ p

variable {pat : List α} {c : α}

omit [DecidableEq α] in
theorem Tag.ne_nil (h : Tag pat c) : pat ≠ [] := by obtain ⟨p, rfl, -⟩ := h; simp

/-- A text without the tag's first byte is skipped. -/
theorem find_skip (h : Tag pat c) {u : List α} (hu : c ∉ u) (s : List α) :
    find pat (u ++ s) = (find pat s).map (· + u.length) := by
  obtain ⟨p, rfl, -⟩ := h
  exact find_skip_head hu s

theorem find_none_of_notMem (h : Tag pat c) {u : List α} (hu : c ∉ u) : find pat u = none := by
  have := find_skip h hu []
  simpa [find, h.ne_nil] using this

/-- A prefix of a concatenation whose second text starts with the tag's first byte is
    a prefix of the first text, or the first text is empty. -/
theorem Tag.prefix_append (h : Tag pat c) {b : α} {a r : List α} :
    pat.isPrefixOf (b :: a ++ c :: r) = pat.isPrefixOf (b :: a) := by
  obtain ⟨p, rfl, hp⟩ := h
  have key : ∀ (p a : List α), c ∉ p → p.isPrefixOf (a ++ c :: r) = p.isPrefixOf a := by
    intro p
    induction p with
    | nil => simp
    | cons x p ih =>
      intro a hx
      simp only [List.mem_cons, not_or] at hx
      rcases a with _ | ⟨y, a⟩
      · simp [List.isPrefixOf, Ne.symm hx.1]
      · simp [List.isPrefixOf, ih a hx.2]
  simp [List.isPrefixOf, key p a hp]

theorem find_append_tag (h : Tag pat c) (a r : List α) :
    find pat (a ++ c :: r) = (find pat a).or ((find pat (c :: r)).map (· + a.length)) := by
  induction a with
  | nil => simp [find, h.ne_nil]
  | cons b a ih =>
    rw [List.cons_append, find, find, ← List.cons_append, h.prefix_append, ih]
    split
    · rfl
    · cases find pat a <;> cases find pat (c :: r) <;> simp [Nat.add_assoc]

/-- A tag occurring in a concatenation cut at its first byte occurs in one of the two. -/
theorem infix_append_tag (h : Tag pat c) {a r : List α} :
    pat <:+: a ++ c :: r ↔ pat <:+: a ∨ pat <:+: c :: r := by
  constructor
  · intro hi
    by_contra hn
    rw [not_or, ← find_eq_none_iff, ← find_eq_none_iff] at hn
    have : find pat (a ++ c :: r) = none := by rw [find_append_tag h, hn.1, hn.2]; rfl
    exact find_eq_none_iff.mp this hi
  · rintro (hi | hi)
    · exact hi.trans (List.infix_append_left)
    · exact hi.trans (List.infix_append_right)

/-- A tag right after a text that does not hold it is found there. -/
theorem find_at_tag (h : Tag pat c) {a : List α} (ha : ¬ pat <:+: a) (b : List α) :
    find pat (a ++ (pat ++ b)) = some a.length := by
  have ha' := find_eq_none_iff.mpr ha
  obtain ⟨p, rfl, hp⟩ := h
  have h0 : find (c :: p) (c :: p ++ b) = some 0 := by
    have : (c :: p).isPrefixOf (c :: (p ++ b)) = true :=
      List.isPrefixOf_iff_prefix.mpr (by simp)
    simp only [List.cons_append, find, this, if_true]
  rw [List.cons_append] at h0 ⊢
  rw [find_append_tag ⟨p, rfl, hp⟩, ha', h0]
  simp

end Search

/-- An element of joined lists belongs to the separator or to one of them. -/
theorem mem_intercalate {α : Type} {sep : List α} {b : α} : ∀ {ws : List (List α)}, b ∈ sep.intercalate ws →
    b ∈ sep ∨ ∃ w ∈ ws, b ∈ w := by
  intro ws
  induction ws with
  | nil =>
    intro h
    cases h
  | cons w ws ih =>
    intro h
    rcases ws with _ | ⟨x, xs⟩
    · exact Or.inr ⟨w, List.mem_cons_self, by simpa using h⟩
    · rw [List.intercalate_cons_cons, List.mem_append, List.mem_append] at h
      rcases h with (h | h) | h
      · exact Or.inr ⟨w, List.mem_cons_self, h⟩
      · exact Or.inl h
      · rcases ih h with h | ⟨y, hy, hb⟩
        · exact Or.inl h
        · exact Or.inr ⟨y, List.mem_cons_of_mem _ hy, hb⟩

theorem intercalate_append {α : Type} {sep : List α} {l r : List (List α)} (hl : l ≠ []) (hr : r ≠ []) :
    sep.intercalate (l ++ r) = sep.intercalate l ++ sep ++ sep.intercalate r := by
  induction l with
  | nil => exact absurd rfl hl
  | cons a l ih =>
    by_cases hnil : l = []
    · rw [hnil, List.singleton_append, List.intercalate_cons_of_ne_nil hr, List.intercalate_singleton, List.append_assoc]
    · rw [List.cons_append, List.intercalate_cons_of_ne_nil (by simp [hnil]), List.intercalate_cons_of_ne_nil hnil, ih hnil]
      simp only [List.append_assoc]

/-- A separator behind each text but the last. -/
theorem dropLast_separated {α : Type} (x : α) (ws : List (List α)) : (ws.flatMap (· ++ [x])).dropLast = [x].intercalate ws := by
  induction ws with
  | nil => rfl
  | cons w ws ih =>
    rcases ws with _ | ⟨v, ws⟩
    · simp
    · have hlong : (v :: ws).flatMap (· ++ [x]) ≠ [] := by simp
      rw [List.flatMap_cons, List.dropLast_append_of_ne_nil hlong, ih, List.intercalate_cons_cons, List.append_assoc]

/-- What comes behind a list in another one. -/
theorem same_step {α : Type} {l t : List α} {x y : α} (hx : l ++ [x] <+: t) (hy : l ++ [y] <+: t) : x = y := by
  have heq := (List.prefix_of_prefix_length_le hx hy (by rw [List.length_append, List.length_append]; rfl)).eq_of_length
    (by rw [List.length_append, List.length_append]; rfl)
  exact List.singleton_inj.mp (List.append_cancel_left heq)

theorem not_longer {α : Type} {l : List α} {x : α} : ¬ l ++ [x] <+: l := by
  intro hpre
  have hlen := hpre.length_le
  rw [List.length_append, List.length_singleton] at hlen
  omega

/-! ## Slices and buffers -/

/-- `std::string::npos` of a 64-bit `size_t`. -/
def npos : Nat := 2 ^ 64 - 1

/-- Subtraction of `size_t`s below 2^64. -/
def subSz (a b : Nat) : Nat := (2 ^ 64 + a - b) % 2 ^ 64

/-- Addition of two `size_t`. -/
@[irreducible] def addSz (a b : Nat) : Nat := (a + b) % 2 ^ 64

theorem addSz_of_lt {a b : Nat} (h : a + b < 2 ^ 64) : addSz a b = a + b := by
  rw [addSz, Nat.mod_eq_of_lt h]

theorem subSz_of_le {a b : Nat} (h : b ≤ a) (ha : a < 2 ^ 64) : subSz a b = a - b := by
  unfold subSz; omega

theorem subSz_of_lt {a b : Nat} (h : a < b) (hb : b < 2 ^ 64) : subSz a b = 2 ^ 64 + a - b := by
  unfold subSz; omega

/-- `substr(pos, n)` for `pos` inside the string. -/
def substr (s : Str) (pos n : Nat) : Str := (s.drop pos).take n

theorem substr_mid (a m b : Str) : substr (a ++ m ++ b) a.length m.length = m := by
  simp [substr]

/-- What a reader of a NUL-terminated buffer sees. -/
def cstr (s : Str) : Str := s.takeWhile (· ≠ 0)

theorem cstr_of_notMem {s : Str} (h : (0 : UInt8) ∉ s) : cstr s = s := by
  rw [cstr, List.takeWhile_eq_self_iff]
  intro b hb
  simpa using fun e : b = 0 => h (e ▸ hb)

theorem zero_notMem_cstr (s : Str) : (0 : UInt8) ∉ cstr s := by
  intro h
  have := List.mem_takeWhile_imp h
  simp at this

theorem cstr_prefix (s : Str) : cstr s <+: s := List.takeWhile_prefix _

theorem cstr_append_left {u : Str} (hu : (0 : UInt8) ∉ u) (v : Str) : cstr (u ++ v) = u ++ cstr v :=
  List.takeWhile_append_of_pos fun _ hb => decide_eq_true fun e => hu (e ▸ hb)

theorem cstr_append_of_mem {u : Str} (hu : (0 : UInt8) ∈ u) (v : Str) : cstr (u ++ v) = cstr u := by
  induction u with
  | nil => cases hu
  | cons b u ih =>
    by_cases hb : b = 0
    · simp [cstr, hb]
    · have hmem := (List.mem_cons.mp hu).resolve_left (Ne.symm hb)
      simpa [cstr, hb] using ih hmem

theorem cstr_append_zeros {s : Str} (h : (0 : UInt8) ∉ s) (n : Nat) : cstr (s ++ List.replicate n 0) = s := by
  induction s with
  | nil => cases n <;> simp [cstr, List.replicate_succ]
  | cons b s ih =>
    simp only [List.mem_cons, not_or] at h
    have hb : b ≠ 0 := Ne.symm h.1
    simpa [cstr, hb] using ih h.2

/-- `sprintf` of a format whose only directive is `%s`. -/
def sprintfS : Str → List Str → Str
  | [], _ => []
  | b :: r, args =>
    match r, args with
    | c :: r', a :: as => if b = 37 ∧ c = 115 then cstr a ++ sprintfS r' as else b :: sprintfS (c :: r') (a :: as)
    | _, _ => b :: r

theorem sprintfS_no_args (s : Str) : sprintfS s [] = s := by
  rcases s with _ | ⟨b, _ | ⟨c, s⟩⟩ <;> rfl

theorem sprintfS_text {u : Str} (h : (37 : UInt8) ∉ u) (r : Str) (args : List Str) :
    sprintfS (u ++ r) args = u ++ sprintfS r args := by
  induction u with
  | nil => rfl
  | cons b u ih =>
    simp only [List.mem_cons, not_or] at h
    rw [List.cons_append, List.cons_append, ← ih h.2]
    rcases args with _ | ⟨a, as⟩
    · simp [sprintfS_no_args]
    · rcases hur : u ++ r with _ | ⟨c, s⟩
      · rfl
      · simp [sprintfS, Ne.symm h.1]

theorem sprintfS_arg (r a : Str) (as : List Str) : sprintfS (str "%s" ++ r) (a :: as) = cstr a ++ sprintfS r as := by
  rw [show str "%s" = [37, 115] by decide]; simp [sprintfS]

/-- A format with two directives. -/
theorem sprintfS_two {f a b c : Str} (hf : f = a ++ (str "%s" ++ (b ++ (str "%s" ++ c)))) (ha : (37 : UInt8) ∉ a)
    (hb : (37 : UInt8) ∉ b) (x y : Str) : sprintfS f [x, y] = a ++ (cstr x ++ (b ++ (cstr y ++ c))) := by
  rw [hf, sprintfS_text ha, sprintfS_arg, sprintfS_text hb, sprintfS_arg, sprintfS_no_args]

end VyattaRest.Lib
