import Mcsos.Lib.Bytes
import Mathlib.Tactic.IntervalCases

/-!
# Bitmaps inside a byte buffer

Bit `i` of a buffer is bit `i % 8` of byte `i / 8`.  The three operations are the masked
expressions a C program writes; `testBit_setBit` and `testBit_clearBit` say that they act on the
set of marked indices as insertion and removal, which is all that is used afterwards.
-/

namespace Mcsos.Bytes

variable {n : ℕ}

/-- The one-byte mask of bit `i % 8`. -/
def bitMask (i : ℕ) : UInt8 := 1 <<< UInt8.ofNat (i % 8)

/-- Whether bit `i` is set. -/
def testBit (b : Bytes n) (i : ℕ) : Bool := b.byte (i / 8) &&& bitMask i != 0

/-- Sets bit `i`. -/
def setBit (b : Bytes n) (i : ℕ) : Bytes n :=
  b.splice (i / 8) 1 fun _ => b.byte (i / 8) ||| bitMask i

/-- Clears bit `i`. -/
def clearBit (b : Bytes n) (i : ℕ) : Bytes n :=
  b.splice (i / 8) 1 fun _ => b.byte (i / 8) &&& ~~~ bitMask i

/-- Masking with one bit reads that bit. -/
private theorem and_bitMask_ne_zero (x : UInt8) (i : ℕ) :
    (x &&& bitMask i != 0) = x.toBitVec.getLsbD (i % 8) := by
  have hlt : i % 8 < 8 := Nat.mod_lt _ (by decide)
  have hmask : (bitMask i).toBitVec = BitVec.twoPow 8 (i % 8) := by
    unfold bitMask
    generalize i % 8 = k at hlt ⊢
    interval_cases k <;> decide
  have hand : (x &&& bitMask i = 0) ↔ x.toBitVec &&& BitVec.twoPow 8 (i % 8) = 0#8 := by
    rw [← UInt8.toBitVec_inj, UInt8.toBitVec_and, hmask]
    rfl
  rw [Bool.eq_iff_iff, bne_iff_ne, ne_eq, hand, BitVec.and_twoPow]
  cases hbit : x.toBitVec.getLsbD (i % 8) with
  | false => simp
  | true =>
      simp only [if_true, iff_true]
      intro hzero
      have := congrArg (fun v : BitVec 8 => v.getLsbD (i % 8)) hzero
      simp [hlt] at this

private theorem getLsbD_bitMask (i : ℕ) {k : ℕ} (hk : k < 8) :
    (bitMask i).toBitVec.getLsbD k = decide (i % 8 = k) := by
  have hlt : i % 8 < 8 := Nat.mod_lt _ (by decide)
  unfold bitMask
  generalize i % 8 = j at hlt ⊢
  interval_cases j <;> interval_cases k <;> decide

theorem testBit_eq (b : Bytes n) (i : ℕ) :
    b.testBit i = (b.byte (i / 8)).toBitVec.getLsbD (i % 8) :=
  and_bitMask_ne_zero _ _

private theorem testBit_splice_byte (b : Bytes n) {i j : ℕ} (v : UInt8) (hi : i / 8 < n) :
    (b.splice (i / 8) 1 fun _ => v).testBit j =
      if j / 8 = i / 8 then v.toBitVec.getLsbD (j % 8) else b.testBit j := by
  rw [testBit_eq]
  by_cases h : j / 8 = i / 8
  · rw [if_pos h, byte_splice_of_inside b _ (by omega) (by omega)]
  · rw [if_neg h, byte_splice_of_outside b _ (by omega), testBit_eq]

theorem testBit_setBit (b : Bytes n) {i : ℕ} (j : ℕ) (hi : i / 8 < n) :
    (b.setBit i).testBit j = (decide (i = j) || b.testBit j) := by
  have hj : j % 8 < 8 := Nat.mod_lt _ (by decide)
  unfold setBit
  rw [testBit_splice_byte b _ hi]
  split
  case isTrue h =>
      have hiff : decide (i % 8 = j % 8) = decide (i = j) := decide_eq_decide.mpr (by omega)
      rw [UInt8.toBitVec_or, BitVec.getLsbD_or, getLsbD_bitMask i hj, hiff,
        testBit_eq, h, Bool.or_comm]
  case isFalse h =>
      rw [decide_eq_false (by rintro rfl; exact h rfl), Bool.false_or]

theorem testBit_clearBit (b : Bytes n) {i : ℕ} (j : ℕ) (hi : i / 8 < n) :
    (b.clearBit i).testBit j = (decide (i ≠ j) && b.testBit j) := by
  have hj : j % 8 < 8 := Nat.mod_lt _ (by decide)
  unfold clearBit
  rw [testBit_splice_byte b _ hi]
  split
  case isTrue h =>
      have hiff : decide (i % 8 = j % 8) = decide (i = j) := decide_eq_decide.mpr (by omega)
      rw [UInt8.toBitVec_and, UInt8.toBitVec_not, BitVec.getLsbD_and, BitVec.getLsbD_not,
        getLsbD_bitMask i hj, hiff, testBit_eq, h]
      simp [hj, Bool.and_comm]
  case isFalse h =>
      rw [decide_eq_true (by rintro rfl; exact h rfl), Bool.true_and]

@[simp] theorem testBit_zero (i : ℕ) : (zero : Bytes n).testBit i = false := by
  rw [testBit_eq, byte_zero]
  simp

/-- A loop that sets the bits of a list. -/
theorem testBit_foldl_setBit {l : List ℕ} (b : Bytes n) (j : ℕ) (hl : ∀ i ∈ l, i / 8 < n) :
    (l.foldl setBit b).testBit j = (decide (j ∈ l) || b.testBit j) := by
  induction l generalizing b with
  | nil => simp
  | cons i l ih =>
      have htail : ∀ k ∈ l, k / 8 < n := fun k hk => hl k (List.mem_cons_of_mem i hk)
      rw [List.foldl_cons, ih _ htail, testBit_setBit b j (hl i List.mem_cons_self)]
      simp only [List.mem_cons, Bool.decide_or, eq_comm (a := j)]
      cases decide (i = j) <;> simp

end Mcsos.Bytes
