/-
  VyattaRest.Lib.Word — a machine word that is written byte by byte, the low end first.

  A word is a number, and `setByte` puts a byte in a place of it (`*(ptr+k) = b` on a
  little-endian machine). What stood in a word makes no difference below the bytes that have been
  written (`setBytes_mod`), and different bytes make different words (`leValue_injective`).
-/

import VyattaRest.Lib.Bytes
import Mathlib.Data.Nat.Digits.Defs

namespace VyattaRest.Lib

def setByte (val k : Nat) (b : UInt8) : Nat := val % 256 ^ k + 256 ^ k * b.toNat + 256 ^ (k + 1) * (val / 256 ^ (k + 1))

/-- Byte after byte from the place `k` on. -/
def setBytes (val : Nat) : Nat → Str → Nat
  | _, [] => val
  | k, b :: bs => setBytes (setByte val k b) (k + 1) bs

/-- The number that the bytes stand for. -/
def leValue (bs : Str) : Nat := Nat.ofDigits 256 (bs.map UInt8.toNat)

theorem leValue_cons (b : UInt8) (bs : Str) : leValue (b :: bs) = b.toNat + 256 * leValue bs := Nat.ofDigits_cons

theorem setByte_mod (val k : Nat) (b : UInt8) : setByte val k b % 256 ^ (k + 1) = val % 256 ^ k + 256 ^ k * b.toNat := by
  have hpos : 0 < 256 ^ k := Nat.pow_pos (by decide)
  have hlow : val % 256 ^ k < 256 ^ k := Nat.mod_lt _ hpos
  have hb : 256 ^ k * b.toNat ≤ 256 ^ k * 255 := Nat.mul_le_mul_left _ (Nat.le_of_lt_succ b.toNat_lt)
  rw [setByte, Nat.add_mul_mod_self_left, Nat.mod_eq_of_lt (by rw [Nat.pow_succ]; omega)]

theorem setBytes_mod (bs : Str) : ∀ val k, setBytes val k bs % 256 ^ (k + bs.length) = val % 256 ^ k + 256 ^ k * leValue bs := by
  induction bs with
  | nil => exact fun val k => by simp [setBytes, leValue]
  | cons b bs ih =>
    intro val k
    calc setBytes (setByte val k b) (k + 1) bs % 256 ^ (k + (bs.length + 1))
        = setByte val k b % 256 ^ (k + 1) + 256 ^ (k + 1) * leValue bs := by
          rw [← ih, Nat.add_right_comm, Nat.add_assoc]
      _ = val % 256 ^ k + 256 ^ k * leValue (b :: bs) := by
          rw [setByte_mod, Nat.pow_succ, leValue_cons, Nat.mul_add, Nat.mul_assoc, Nat.add_assoc]

theorem toNat_lt_of_mem (bs : Str) : ∀ n ∈ bs.map UInt8.toNat, n < 256 := by
  intro n hn
  obtain ⟨b, -, rfl⟩ := List.mem_map.mp hn
  exact b.toNat_lt

theorem leValue_lt (bs : Str) : leValue bs < 256 ^ bs.length := by
  have h := Nat.ofDigits_lt_base_pow_length (by decide) (toNat_lt_of_mem bs)
  rwa [List.length_map] at h

theorem leValue_injective {bs cs : Str} (hlen : bs.length = cs.length) (h : leValue bs = leValue cs) : bs = cs := by
  have hdigits := Nat.ofDigits_inj_of_len_eq (by decide) (by simpa using hlen) (toNat_lt_of_mem bs) (toNat_lt_of_mem cs) h
  exact List.map_injective_iff.mpr (fun _ _ => UInt8.toNat_inj.mp) hdigits

end VyattaRest.Lib
