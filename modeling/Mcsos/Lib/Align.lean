import Mathlib.Data.Nat.Bitwise

/-!
# Masks

Unsigned code rounds an address down to a multiple of a power of two by clearing its low bits, and
keeps flags and addresses in disjoint bits of a word.
-/

namespace Mcsos

/-- The mask of all bits of a `w`-bit word but the low `k` ones. -/
theorem mask_eq {w k : ℕ} (hk : k ≤ w) : 2 ^ w - 1 - (2 ^ k - 1) = 2 ^ k * (2 ^ (w - k) - 1) := by
  have hpos : 0 < 2 ^ k := Nat.two_pow_pos k
  have hpow : 2 ^ k * 2 ^ (w - k) = 2 ^ w := by rw [← pow_add, Nat.add_sub_cancel' hk]
  calc 2 ^ w - 1 - (2 ^ k - 1) = 2 ^ w - 2 ^ k := by omega
    _ = 2 ^ k * 2 ^ (w - k) - 2 ^ k * 1 := by rw [hpow, Nat.mul_one]
    _ = 2 ^ k * (2 ^ (w - k) - 1) := (Nat.mul_sub ..).symm

/-- Clearing the low `k` bits of a `w`-bit number rounds it down. -/
theorem and_mask_eq {v w k : ℕ} (hv : v < 2 ^ w) (hk : k ≤ w) :
    v &&& (2 ^ w - 1 - (2 ^ k - 1)) = v / 2 ^ k * 2 ^ k := by
  rw [mask_eq hk]
  refine Nat.eq_of_testBit_eq fun i => ?_
  rcases Nat.lt_or_ge i k with hlow | hhigh
  · simp [Nat.testBit_mul_two_pow, Nat.testBit_two_pow_mul, Nat.not_le.mpr hlow]
  · have hbits : v.testBit i = true → i < w := fun hbit => by
      by_contra hlarge
      rw [Nat.testBit_lt_two_pow (hv.trans_le (Nat.pow_le_pow_right (by decide) (by omega)))]
        at hbit
      cases hbit
    cases hbit : v.testBit i with
    | false => simp [hbit, Nat.testBit_mul_two_pow, Nat.testBit_div_two_pow, hhigh]
    | true =>
        have hi := hbits hbit
        simp [hbit, Nat.testBit_mul_two_pow, Nat.testBit_two_pow_mul,
          Nat.testBit_div_two_pow, hhigh, Nat.testBit_two_pow_sub_one,
          Nat.sub_lt_sub_right hhigh hi]

theorem or_and (a b c : UInt64) : (a ||| b) &&& c = (a &&& c) ||| (b &&& c) := by
  rw [← UInt64.toBitVec_inj]
  exact BitVec.and_or_distrib_right

/-- What is masked with disjoint bits is gone. -/
theorem and_and_of_disjoint (a : UInt64) {b c : UInt64} (h : b &&& c = 0) : a &&& b &&& c = 0 := by
  rw [UInt64.and_assoc, h, UInt64.and_zero]

end Mcsos
