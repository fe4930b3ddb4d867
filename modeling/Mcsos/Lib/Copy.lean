import Mathlib.Data.Nat.Notation
import Mathlib.Logic.Function.Basic

/-!
# Copying cell by cell

A loop that copies the cells `src 0, src 1, …` onto the cells `dst 0, dst 1, …`, one after the
other, in a memory with any type of addresses.  The loop may read cells that it has already
overwritten.  The order is safe when no cell is read after it was written; then the loop leaves the
old contents of `src i` in `dst i`, however the two runs of cells overlap.
-/

namespace Mcsos.Copy

variable {A α : Type*} [DecidableEq A]

/-- Copies `n` cells in the order of the indices. -/
def copy (mem : A → α) (dst src : ℕ → A) : (n : ℕ) → A → α
  | 0 => mem
  | n + 1 => copy (Function.update mem (dst 0) (mem (src 0))) (fun i => dst (i + 1))
      (fun i => src (i + 1)) n

/-- The first `n` destinations are different cells, and none of the first `n` sources has been
overwritten when its turn comes. -/
structure Safe (dst src : ℕ → A) (n : ℕ) : Prop where
  distinct : ∀ i j, i < j → j < n → dst i ≠ dst j
  unread : ∀ i j, i < j → j < n → dst i ≠ src j

variable {mem : A → α} {dst src : ℕ → A} {n : ℕ}

omit [DecidableEq A] in
theorem Safe.tail (h : Safe dst src (n + 1)) :
    Safe (fun i => dst (i + 1)) (fun i => src (i + 1)) n where
  distinct :=
    fun i j hij hj => h.distinct (i + 1) (j + 1) (Nat.succ_lt_succ hij) (Nat.succ_lt_succ hj)
  unread := fun i j hij hj => h.unread (i + 1) (j + 1) (Nat.succ_lt_succ hij) (Nat.succ_lt_succ hj)

/-- A copy changes no cell but the destinations. -/
theorem copy_of_ne {x : A} (h : ∀ i, i < n → x ≠ dst i) : copy mem dst src n x = mem x := by
  induction n generalizing mem dst src with
  | zero => rfl
  | succ n ih =>
      have hrest : ∀ i, i < n → x ≠ dst (i + 1) := fun i hi => h (i + 1) (Nat.succ_lt_succ hi)
      rw [copy, ih hrest, Function.update_of_ne (h 0 (Nat.succ_pos n))]

/-- What a safe copy leaves in its destinations: the old contents of the sources. -/
theorem Safe.copy_dst (h : Safe dst src n) {i : ℕ} (hi : i < n) :
    copy mem dst src n (dst i) = mem (src i) := by
  induction n generalizing mem dst src i with
  | zero => exact absurd hi (Nat.not_lt_zero i)
  | succ n ih =>
      cases i with
      | zero =>
          -- the first cell is written once, and no later turn touches it
          have hlater : ∀ j, j < n → dst 0 ≠ dst (j + 1) :=
            fun j hj => h.distinct 0 (j + 1) (Nat.succ_pos j) (Nat.succ_lt_succ hj)
          rw [copy, copy_of_ne hlater, Function.update_self]
      | succ i =>
          have hkept : src (i + 1) ≠ dst 0 := (h.unread 0 (i + 1) (Nat.succ_pos i) hi).symm
          rw [copy, ih h.tail (Nat.lt_of_succ_lt_succ hi), Function.update_of_ne hkept]

end Mcsos.Copy
