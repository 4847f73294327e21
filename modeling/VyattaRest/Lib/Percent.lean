/-
  VyattaRest.Lib.Percent — percent-coding of byte strings.

  `percentDecode` replaces each `%` followed by two hexadecimal digits by the byte they
  name and keeps every other byte, a stray `%` included (RFC 3986 §2.1, and libcurl's
  unescape). `percentEncode safe` writes every byte outside `safe` as `%XX` with
  upper-case digits. `percentDecode_encode`: decoding inverts encoding whenever `%` is
  not safe. `percentDecode_append`: a byte that is no hexadecimal digit never takes
  part in an escape that began before it, so decoding goes text by text around it.
-/

import VyattaRest.Lib.Bytes

namespace VyattaRest.Lib

/-- The value of a hexadecimal digit, either case. -/
def hexVal (b : UInt8) : Option Nat :=
  if 48 ≤ b.toNat ∧ b.toNat ≤ 57 then some (b.toNat - 48)
  else if 65 ≤ b.toNat ∧ b.toNat ≤ 70 then some (b.toNat - 55)
  else if 97 ≤ b.toNat ∧ b.toNat ≤ 102 then some (b.toNat - 87)
  else none

/-- The upper-case hexadecimal digit of a value below 16. -/
def hexDigit (n : Nat) : UInt8 := (if n < 10 then 48 + n else 55 + n).toUInt8

theorem hexVal_hexDigit : ∀ n < 16, hexVal (hexDigit n) = some n := by decide

def isHex (b : UInt8) : Bool := (hexVal b).isSome

theorem isHex_hexDigit {n : Nat} (h : n < 16) : isHex (hexDigit n) = true := by
  rw [isHex, hexVal_hexDigit n h]; rfl

theorem isHex_toNat {b : UInt8} (h : isHex b = true) : 48 ≤ b.toNat ∧ b.toNat ≤ 102 := by
  obtain ⟨n, hn⟩ := Option.isSome_iff_exists.mp h
  unfold hexVal at hn
  split at hn
  · omega
  · split at hn
    · omega
    · split at hn
      · omega
      · cases hn

def percentDecode : Str → Str
  | [] => []
  | c :: r =>
    if c = 37 then
      match r with
      | a :: b :: r' =>
        match hexVal a, hexVal b with
        | some x, some y => (16 * x + y).toUInt8 :: percentDecode r'
        | _, _ => c :: percentDecode (a :: b :: r')
      | [a] => [c, a]
      | [] => [c]
    else c :: percentDecode r

def percentEncode (safe : UInt8 → Bool) (s : Str) : Str :=
  s.flatMap fun b => if safe b then [b] else [37, hexDigit (b.toNat / 16), hexDigit (b.toNat % 16)]

/-! ## Decoding, step by step -/

@[simp] theorem percentDecode_nil : percentDecode [] = [] := rfl

theorem percentDecode_cons_ne {c : UInt8} (h : c ≠ 37) (r : Str) :
    percentDecode (c :: r) = c :: percentDecode r := by
  rw [percentDecode.eq_def]
  simp [h]

theorem percentDecode_escape {a b : UInt8} {x y : Nat} (ha : hexVal a = some x) (hb : hexVal b = some y) (r : Str) :
    percentDecode (37 :: a :: b :: r) = (16 * x + y).toUInt8 :: percentDecode r := by
  rw [percentDecode]; simp [ha, hb]

/-- A `%` that is not followed by two digits stays. -/
theorem percentDecode_stray {r : Str}
    (h : ∀ a b r', r = a :: b :: r' → hexVal a = none ∨ hexVal b = none) :
    percentDecode (37 :: r) = 37 :: percentDecode r := by
  match r with
  | [] => rfl
  | [a] => by_cases ha : a = 37 <;> simp [percentDecode, ha]
  | a :: b :: r' =>
    rw [percentDecode]
    simp only [if_true]
    rcases h a b r' rfl with ha | hb
    · simp [ha]
    · cases hexVal a <;> simp [hb]

theorem percentDecode_append_of_notMem {u : Str} (h : (37 : UInt8) ∉ u) (s : Str) :
    percentDecode (u ++ s) = u ++ percentDecode s := by
  induction u with
  | nil => rfl
  | cons b u ih =>
    simp only [List.mem_cons, not_or] at h
    rw [List.cons_append, percentDecode_cons_ne (Ne.symm h.1), ih h.2, List.cons_append]

theorem percentDecode_of_notMem {u : Str} (h : (37 : UInt8) ∉ u) : percentDecode u = u := by
  simpa using percentDecode_append_of_notMem h []

/-- Decoding goes text by text around a byte that is neither `%` nor a digit. -/
theorem percentDecode_append {c : UInt8} (hc : hexVal c = none) (s r : Str) :
    percentDecode (s ++ c :: r) = percentDecode s ++ percentDecode (c :: r) := by
  -- Strong induction on the length: an escape consumes three bytes of `s` at once.
  induction hn : s.length using Nat.strong_induction_on generalizing s with
  | _ n ih =>
    match s with
    | [] => rfl
    | b :: t =>
      by_cases hb : b = 37
      · subst hb
        match t with
        | [] => exact percentDecode_stray fun a b r' e => by cases e; exact Or.inl hc
        | [a] =>
          rw [percentDecode_stray (r := [a]) (by simp), List.cons_append, List.cons_append,
            percentDecode_stray (by intro x y r' e; cases e; exact Or.inr hc)]
          exact congrArg (37 :: ·) (ih 1 (by simp at hn; omega) [a] rfl)
        | a :: a' :: t =>
          simp only [List.length_cons] at hn
          by_cases hd : (hexVal a).isSome ∧ (hexVal a').isSome
          · obtain ⟨x, hx⟩ := Option.isSome_iff_exists.mp hd.1
            obtain ⟨y, hy⟩ := Option.isSome_iff_exists.mp hd.2
            simp only [List.cons_append]
            rw [percentDecode_escape hx hy, percentDecode_escape hx hy, ih t.length (by omega) t rfl]
            rfl
          · have hs : ∀ q : Str, ∀ x y r', a :: a' :: q = x :: y :: r' → hexVal x = none ∨ hexVal y = none := by
              intro q x y r' e
              cases e
              rcases not_and_or.mp hd with h | h
              · exact Or.inl (by simpa using h)
              · exact Or.inr (by simpa using h)
            simp only [List.cons_append]
            rw [percentDecode_stray (hs _), percentDecode_stray (hs _)]
            exact congrArg (37 :: ·) (ih (t.length + 2) (by omega) (a :: a' :: t) rfl)
      · rw [List.cons_append, percentDecode_cons_ne hb, percentDecode_cons_ne hb,
          ih t.length (by simp at hn; omega) t rfl, List.cons_append]

/-! ## Encoding -/

theorem percentEncode_cons (safe : UInt8 → Bool) (b : UInt8) (s : Str) :
    percentEncode safe (b :: s) = percentEncode safe [b] ++ percentEncode safe s := by
  simp [percentEncode]

theorem percentEncode_of_all {safe : UInt8 → Bool} {s : Str} (h : ∀ b ∈ s, safe b = true) :
    percentEncode safe s = s := by
  induction s with
  | nil => rfl
  | cons b s ih =>
    rw [percentEncode_cons, ih fun x hx => h x (List.mem_cons_of_mem _ hx)]
    simp [percentEncode, h b List.mem_cons_self]

/-- A byte of an encoded string is safe, a `%` or a digit. -/
theorem mem_percentEncode {safe : UInt8 → Bool} {s : Str} {c : UInt8} (h : c ∈ percentEncode safe s) :
    (safe c = true ∧ c ∈ s) ∨ c = 37 ∨ isHex c = true := by
  obtain ⟨b, hb, hc⟩ := List.mem_flatMap.mp h
  split at hc
  · rename_i hs
    rw [List.mem_singleton] at hc
    subst hc
    exact Or.inl ⟨hs, hb⟩
  · have hlt := b.toNat_lt
    simp only [List.mem_cons, List.not_mem_nil, or_false] at hc
    rcases hc with rfl | rfl | rfl
    · exact Or.inr (Or.inl rfl)
    · exact Or.inr (Or.inr (isHex_hexDigit (by omega)))
    · exact Or.inr (Or.inr (isHex_hexDigit (by omega)))

theorem percentDecode_encode {safe : UInt8 → Bool} (h : safe 37 = false) (s : Str) :
    percentDecode (percentEncode safe s) = s := by
  induction s with
  | nil => rfl
  | cons b s ih =>
    rw [percentEncode_cons]
    by_cases hb : safe b = true
    · have hne : b ≠ 37 := by rintro rfl; rw [h] at hb; cases hb
      simp only [percentEncode, List.flatMap_cons, List.flatMap_nil, hb, if_true, List.append_nil,
        List.cons_append, List.nil_append]
      rw [percentDecode_cons_ne hne]
      exact congrArg (b :: ·) ih
    · have hlt := b.toNat_lt
      simp only [percentEncode, List.flatMap_cons, List.flatMap_nil, hb, if_false, List.append_nil,
        List.cons_append, List.nil_append, Bool.false_eq_true]
      rw [percentDecode_escape (hexVal_hexDigit _ (by omega)) (hexVal_hexDigit _ (by omega)),
        show 16 * (b.toNat / 16) + b.toNat % 16 = b.toNat by omega]
      simpa [percentEncode] using ih

end VyattaRest.Lib
