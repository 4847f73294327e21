/-
  VyattaRest.Lib.Decimal — integers as C prints and reads them.

  `dec` is the decimal text of a number, `ld` what `%ld` prints for an `unsigned long`
  (its two's complement reading), `strtoul` and `strtol` the readers: white space, a sign,
  the longest run of digits, whatever follows is ignored, values out of range are clamped.
  `strtoul_ld` and `strtol_ld`: the readers give back what `ld` printed. `scanDigits_lt` and
  `scanDigits_prefix_dec` bound what is read of few digits and of a number cut off.
-/

import VyattaRest.Lib.Percent

namespace VyattaRest.Lib

/-! ## Printing -/

def dec (n : Nat) : Str := (Nat.toDigits 10 n).map fun c => c.toNat.toUInt8

/-- The value of an `unsigned long` taken as a `long`. -/
def toSigned (x : UInt64) : Int := if x.toNat < 2 ^ 63 then x.toNat else (x.toNat : Int) - 2 ^ 64

/-- `%ld` of an `unsigned long`. -/
def ld (x : UInt64) : Str := if x.toNat < 2 ^ 63 then dec x.toNat else 45 :: dec (2 ^ 64 - x.toNat)

/-! ## Reading -/

/-- The value of a digit in a base up to 16. -/
def digitVal (base : Nat) (b : UInt8) : Option Nat := (hexVal b).filter (· < base)

/-- The value of the leading digits, after the digits read so far. -/
def scanDigits (base : Nat) : Str → Nat → Nat
  | [], acc => acc
  | b :: r, acc =>
    match digitVal base b with
    | some d => scanDigits base r (base * acc + d)
    | none => acc

/-- White space and a sign, and what follows them. -/
def scanSign (s : Str) : Bool × Str :=
  match s.dropWhile isSpace with
  | 45 :: r => (true, r)
  | 43 :: r => (false, r)
  | r => (false, r)

/-- Base 0 takes the base from the text: `0x`, a leading `0`, or decimal. -/
def scanBase (base : Nat) (s : Str) : Nat × Str :=
  if base ≠ 0 then (base, s)
  else match s with
    | 48 :: x :: c :: r => if (x = 120 ∨ x = 88) ∧ isHex c then (16, c :: r) else (8, s)
    | 48 :: _ => (8, s)
    | _ => (10, s)

def scanInteger (base : Nat) (s : Str) : Bool × Nat :=
  match scanSign s with
  | (neg, r) => match scanBase base r with
    | (b, r) => (neg, scanDigits b r 0)

def strtoul (base : Nat) (s : Str) : Nat :=
  match scanInteger base s with
  | (neg, v) => if 2 ^ 64 ≤ v then 2 ^ 64 - 1 else if neg then (2 ^ 64 - v) % 2 ^ 64 else v

def strtol (base : Nat) (s : Str) : Int :=
  match scanInteger base s with
  | (neg, v) => if neg then max (-(v : Int)) (-2 ^ 63) else min (v : Int) (2 ^ 63 - 1)

/-! ## Digits -/

theorem dec_of_lt {n : Nat} (h : n < 10) : dec n = [(48 + n).toUInt8] := by
  rw [dec, Nat.toDigits_of_lt_base h]
  revert h
  revert n
  decide

theorem dec_of_le {n : Nat} (h : 10 ≤ n) : dec n = dec (n / 10) ++ [(48 + n % 10).toUInt8] := by
  have hd : ∀ d < 10, d.digitChar.toNat.toUInt8 = (48 + d).toUInt8 := by decide
  rw [dec, Nat.toDigits_of_base_le (by decide) h, List.map_append, List.map_singleton, hd _ (Nat.mod_lt _ (by decide))]
  rfl

theorem dec_ne_nil (n : Nat) : dec n ≠ [] := by
  rw [dec, ne_eq, List.map_eq_nil_iff]
  exact Nat.toDigits_ne_nil

def isDigit (b : UInt8) : Bool := 48 ≤ b && b ≤ 57

theorem mem_dec {n : Nat} : ∀ b ∈ dec n, isDigit b = true := by
  have hd : ∀ d < 10, isDigit (48 + d).toUInt8 = true := by decide
  induction n using Nat.strong_induction_on with
  | _ n ih =>
    intro b hb
    by_cases h : n < 10
    · rw [dec_of_lt h, List.mem_singleton] at hb
      subst hb
      exact hd n h
    · rw [dec_of_le (by omega), List.mem_append, List.mem_singleton] at hb
      rcases hb with hb | rfl
      · exact ih (n / 10) (by omega) b hb
      · exact hd _ (Nat.mod_lt _ (by decide))

theorem digitVal_digit : ∀ d < 10, digitVal 10 (48 + d).toUInt8 = some d := by decide

theorem digitVal_isSome {b : UInt8} (h : isDigit b = true) : (digitVal 10 b).isSome = true := by
  rw [isDigit, Bool.and_eq_true, decide_eq_true_eq, decide_eq_true_eq, UInt8.le_iff_toNat_le, UInt8.le_iff_toNat_le] at h
  simp only [UInt8.reduceToNat] at h
  rw [digitVal, hexVal, if_pos h, Option.filter, if_pos (by simp; omega)]
  rfl

theorem scanDigits_append {u : Str} (hu : ∀ b ∈ u, isDigit b = true) : ∀ (t : Str) (acc : Nat),
    scanDigits 10 (u ++ t) acc = scanDigits 10 t (scanDigits 10 u acc) := by
  induction u with
  | nil => intro t acc; rfl
  | cons b u ih =>
    intro t acc
    obtain ⟨d, hd⟩ := Option.isSome_iff_exists.mp (digitVal_isSome (hu b List.mem_cons_self))
    simp only [List.cons_append, scanDigits, hd]
    exact ih (fun x hx => hu x (List.mem_cons_of_mem _ hx)) t _

theorem scanDigits_dec (n : Nat) : scanDigits 10 (dec n) 0 = n := by
  induction n using Nat.strong_induction_on with
  | _ n ih =>
    by_cases h : n < 10
    · rw [dec_of_lt h, scanDigits, digitVal_digit n h]
      simp [scanDigits]
    · rw [dec_of_le (by omega), scanDigits_append mem_dec, ih (n / 10) (by omega), scanDigits,
        digitVal_digit _ (Nat.mod_lt _ (by decide))]
      simp only [scanDigits]
      omega

/-- Digits up to a byte that is none. -/
theorem scanDigits_dec_append (n : Nat) {t : Str} (ht : ∀ b ∈ t.head?, digitVal 10 b = none) :
    scanDigits 10 (dec n ++ t) 0 = n := by
  rw [scanDigits_append mem_dec, scanDigits_dec]
  rcases t with _ | ⟨b, t⟩
  · rfl
  · rw [scanDigits, ht b rfl]

/-! ## Reading back -/

theorem dec_cons (n : Nat) : ∃ b r, dec n = b :: r ∧ isDigit b = true := by
  obtain ⟨b, r, h⟩ := List.exists_cons_of_ne_nil (dec_ne_nil n)
  exact ⟨b, r, h, mem_dec b (by rw [h]; exact List.mem_cons_self)⟩

theorem isDigit_toNat {b : UInt8} (h : isDigit b = true) : 48 ≤ b.toNat ∧ b.toNat ≤ 57 := by
  rw [isDigit, Bool.and_eq_true, decide_eq_true_eq, decide_eq_true_eq, UInt8.le_iff_toNat_le, UInt8.le_iff_toNat_le] at h
  simpa using h

theorem isSpace_digit {b : UInt8} (h : isDigit b = true) : isSpace b = false := by
  have := isDigit_toNat h
  simp only [isSpace, Bool.or_eq_false_iff, Bool.and_eq_false_iff, decide_eq_false_iff_not, beq_eq_false_iff_ne, ne_eq,
    UInt8.le_iff_toNat_le, ← UInt8.toNat_inj]
  simp only [UInt8.reduceToNat]
  omega

/-- Nothing to skip in front of a digit, nor of any other byte that is no space and no sign. -/
theorem scanSign_plain {b : UInt8} (hs : isSpace b = false) (h₁ : b ≠ 45) (h₂ : b ≠ 43) (r : Str) :
    scanSign (b :: r) = (false, b :: r) := by
  rw [scanSign, List.dropWhile_cons_of_neg (by simp [hs])]
  split
  · rename_i heq; exact absurd (List.cons.inj heq).1 h₁
  · rename_i heq; exact absurd (List.cons.inj heq).1 h₂
  · rfl

theorem scanSign_digit {b : UInt8} (h : isDigit b = true) (r : Str) : scanSign (b :: r) = (false, b :: r) := by
  have hd := isDigit_toNat h
  refine scanSign_plain (isSpace_digit h) ?_ ?_ r
  · rintro rfl; simp at hd
  · rintro rfl; simp at hd

theorem scanSign_dec (n : Nat) (t : Str) : scanSign (dec n ++ t) = (false, dec n ++ t) := by
  obtain ⟨b, r, hb, hd⟩ := dec_cons n
  rw [hb]
  exact scanSign_digit hd (r ++ t)

theorem scanBase_ten (s : Str) : scanBase 10 s = (10, s) := rfl

theorem scanInteger_dec (n : Nat) {t : Str} (ht : ∀ b ∈ t.head?, digitVal 10 b = none) :
    scanInteger 10 (dec n ++ t) = (false, n) := by
  rw [scanInteger, scanSign_dec]
  simp only [scanBase_ten, scanDigits_dec_append n ht]

theorem scanInteger_neg (n : Nat) {t : Str} (ht : ∀ b ∈ t.head?, digitVal 10 b = none) :
    scanInteger 10 (45 :: dec n ++ t) = (true, n) := by
  have hs : scanSign (45 :: dec n ++ t) = (true, dec n ++ t) := by
    rw [List.cons_append, scanSign, List.dropWhile_cons_of_neg (by decide)]
    rfl
  rw [scanInteger, hs]
  simp only [scanBase_ten, scanDigits_dec_append n ht]

theorem ld_ne_nil (x : UInt64) : ld x ≠ [] := by
  unfold ld; split
  · exact dec_ne_nil _
  · simp

/-- The bytes `%ld` prints. -/
theorem mem_ld {x : UInt64} {b : UInt8} (h : b ∈ ld x) : b = 45 ∨ isDigit b = true := by
  unfold ld at h; split at h
  · exact Or.inr (mem_dec b h)
  · rcases List.mem_cons.mp h with h | h
    · exact Or.inl h
    · exact Or.inr (mem_dec b h)

theorem scanInteger_ld (x : UInt64) {t : Str} (ht : ∀ b ∈ t.head?, digitVal 10 b = none) :
    scanInteger 10 (ld x ++ t) = if x.toNat < 2 ^ 63 then (false, x.toNat) else (true, 2 ^ 64 - x.toNat) := by
  unfold ld; split
  · exact scanInteger_dec _ ht
  · exact scanInteger_neg _ ht

/-- A negative number is read modulo 2^64, so every `unsigned long` comes back. -/
theorem strtoul_ld (x : UInt64) : strtoul 10 (ld x) = x.toNat := by
  have h := scanInteger_ld x (t := []) (by simp)
  rw [List.append_nil] at h
  have hlt := x.toNat_lt
  rw [strtoul, h]
  split
  · rename_i heq
    split at heq <;> cases heq
    · rw [if_neg (by omega)]; simp
    · rw [if_neg (by omega), if_pos rfl]; omega

theorem strtol_ld (x : UInt64) {t : Str} (ht : ∀ b ∈ t.head?, digitVal 10 b = none) :
    strtol 10 (ld x ++ t) = toSigned x := by
  have hlt := x.toNat_lt
  rw [strtol, scanInteger_ld x ht, toSigned]
  split
  · rename_i heq
    split at heq <;> cases heq
    · rw [if_neg (by decide), if_pos (by assumption)]; omega
    · rw [if_pos rfl, if_neg (by assumption)]; omega

/-! ## Bounds -/

theorem digitVal_inv {b : UInt8} {d : Nat} (h : digitVal 10 b = some d) : d < 10 ∧ isDigit b = true := by
  obtain ⟨hv, hlt⟩ := Option.filter_eq_some_iff.mp h
  have hd : d < 10 := by simpa using hlt
  refine ⟨hd, ?_⟩
  rw [isDigit, Bool.and_eq_true, decide_eq_true_eq, decide_eq_true_eq, UInt8.le_iff_toNat_le, UInt8.le_iff_toNat_le]
  simp only [UInt8.reduceToNat]
  unfold hexVal at hv
  split at hv
  · assumption
  · split at hv
    · cases hv; omega
    · split at hv
      · cases hv; omega
      · cases hv

/-- At most `k` digits lead. -/
theorem scanDigits_lt : ∀ {s : Str} {k : Nat}, (s.takeWhile isDigit).length ≤ k → ∀ acc,
    scanDigits 10 s acc < (acc + 1) * 10 ^ k := by
  have hstop : ∀ k acc : Nat, acc < (acc + 1) * 10 ^ k := fun k acc =>
    Nat.lt_of_lt_of_le (Nat.lt_succ_self acc) (Nat.le_mul_of_pos_right _ (Nat.pow_pos (by decide)))
  intro s
  induction s with
  | nil => exact fun _ acc => hstop _ acc
  | cons b s ih =>
    intro k hk acc
    rw [scanDigits]
    rcases hd : digitVal 10 b with _ | d
    · exact hstop k acc
    · obtain ⟨hlt, hdigit⟩ := digitVal_inv hd
      rw [List.takeWhile_cons_of_pos hdigit, List.length_cons] at hk
      obtain ⟨k, rfl⟩ : ∃ j, k = j + 1 := ⟨k - 1, by omega⟩
      calc scanDigits 10 s (10 * acc + d) < (10 * acc + d + 1) * 10 ^ k := ih (by omega) _
        _ ≤ ((acc + 1) * 10) * 10 ^ k := Nat.mul_le_mul_right _ (by omega)
        _ = (acc + 1) * 10 ^ (k + 1) := by rw [Nat.mul_assoc, Nat.pow_succ, Nat.mul_comm 10]

theorem scanDigits_ge {t : Str} (ht : ∀ b ∈ t, isDigit b = true) : ∀ acc, acc * 10 ^ t.length ≤ scanDigits 10 t acc := by
  induction t with
  | nil => intro acc; simp [scanDigits]
  | cons b t ih =>
    intro acc
    obtain ⟨d, hd⟩ := Option.isSome_iff_exists.mp (digitVal_isSome (ht b List.mem_cons_self))
    rw [scanDigits, hd]
    calc acc * 10 ^ (t.length + 1) = 10 * acc * 10 ^ t.length := by
          rw [Nat.pow_succ, Nat.mul_comm (10 ^ t.length), ← Nat.mul_assoc, Nat.mul_comm acc]
      _ ≤ (10 * acc + d) * 10 ^ t.length := Nat.mul_le_mul_right _ (by omega)
      _ ≤ scanDigits 10 t (10 * acc + d) := ih (fun x hx => ht x (List.mem_cons_of_mem _ hx)) _

/-- A number cut off loses a factor of ten. -/
theorem scanDigits_prefix_dec {n : Nat} {u v : Str} (h : dec n = u ++ v) (hv : v ≠ []) : 10 * scanDigits 10 u 0 ≤ n := by
  have hdigit : ∀ b ∈ u ++ v, isDigit b = true := h ▸ mem_dec
  have hlen : 10 ^ 1 ≤ 10 ^ v.length := Nat.pow_le_pow_right (by decide) (List.length_pos_iff.mpr hv)
  calc 10 * scanDigits 10 u 0 ≤ scanDigits 10 u 0 * 10 ^ v.length := by
        rw [Nat.mul_comm]
        exact Nat.mul_le_mul_left _ hlen
    _ ≤ scanDigits 10 v (scanDigits 10 u 0) := scanDigits_ge (fun b hb => hdigit b (List.mem_append_right _ hb)) _
    _ = n := by rw [← scanDigits_append fun b hb => hdigit b (List.mem_append_left _ hb), ← h, scanDigits_dec]

theorem strtoul_plain {b : UInt8} (hs : isSpace b = false) (h₁ : b ≠ 45) (h₂ : b ≠ 43) (r : Str) :
    strtoul 10 (b :: r) = min (scanDigits 10 (b :: r) 0) (2 ^ 64 - 1) := by
  rw [strtoul, scanInteger, scanSign_plain hs h₁ h₂]
  simp only [scanBase_ten, Bool.false_eq_true, if_false]
  split <;> omega

theorem strtoul_prefix_dec {n : Nat} {u v : Str} (h : dec n = u ++ v) (hu : u ≠ []) (hv : v ≠ []) :
    10 * strtoul 10 u ≤ n := by
  have hcut := scanDigits_prefix_dec h hv
  obtain ⟨b, r, rfl⟩ := List.exists_cons_of_ne_nil hu
  have hb : isDigit b = true := mem_dec b (h ▸ List.mem_append_left v List.mem_cons_self)
  have hd := isDigit_toNat hb
  rw [strtoul_plain (isSpace_digit hb) (by rintro rfl; simp at hd) (by rintro rfl; simp at hd)]
  omega

theorem strtoul_dec {n : Nat} (h : n < 2 ^ 64) : strtoul 10 (dec n) = n := by
  have hs := scanInteger_dec n (t := []) (by simp)
  rw [List.append_nil] at hs
  simp only [strtoul, hs, Bool.false_eq_true, if_false]
  rw [if_neg (by omega)]

theorem length_dec_le_iff {n k : Nat} (hk : 0 < k) : (dec n).length ≤ k ↔ n < 10 ^ k := by
  rw [dec, List.length_map]
  exact Nat.length_toDigits_le_iff (by decide) hk

/-! ## Hexadecimal -/

theorem scanDigits_cstr (base : Nat) : ∀ (s : Str) (acc : Nat), scanDigits base (cstr s) acc = scanDigits base s acc := by
  intro s
  induction s with
  | nil => exact fun _ => rfl
  | cons b r ih =>
    intro acc
    by_cases hb : b = 0
    · subst hb
      rfl
    · rw [cstr, List.takeWhile_cons_of_pos (by simpa using hb), scanDigits, scanDigits]
      cases digitVal base b with
      | none => rfl
      | some d => exact ih _

/-- Behind `0x` the digits are hexadecimal, as far as they go. -/
theorem scanInteger_hex (t : Str) : scanInteger 0 (str "0x" ++ t) = (false, scanDigits 16 t 0) := by
  have hsign : scanSign (str "0x" ++ t) = (false, 48 :: 120 :: t) := rfl
  rw [scanInteger, hsign]
  rcases t with _ | ⟨c, r⟩
  · rfl
  · have hbase : scanBase 0 (48 :: 120 :: c :: r) = if isHex c then (16, c :: r) else (8, 48 :: 120 :: c :: r) := by
      simp [scanBase]
    simp only
    rw [hbase]
    by_cases hc : isHex c = true
    · rw [if_pos hc]
    · have hval : digitVal 16 c = none := by
        rw [isHex, Bool.not_eq_true, Option.isSome_eq_false_iff, Option.isNone_iff_eq_none] at hc
        rw [digitVal, hc]
        rfl
      have hnone : scanDigits 16 (c :: r) 0 = 0 := by rw [scanDigits, hval]
      rw [if_neg hc, hnone]
      rfl

theorem strtoul_hex_cstr (t : Str) : strtoul 0 (str "0x" ++ cstr t) = strtoul 0 (str "0x" ++ t) := by
  rw [strtoul, strtoul, scanInteger_hex, scanInteger_hex, scanDigits_cstr]

end VyattaRest.Lib
