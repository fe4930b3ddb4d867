import Mathlib.Data.Nat.Bitwise

/-!
# Block devices and the RAM driver

A block device is known by its pointer; `devs p` is the structure behind the pointer `p`.  The block
layer checks the range of a request and passes it to the driver.  The RAM driver keeps the blocks in
one array of bytes and computes offsets with 64-bit arithmetic.

Requests have a buffer and devices their operations, so the null checks of the source have no
counterpart.  The registry of devices and their names are not part of this model.
-/

namespace Mcsos.Block

/-- The error codes `MCSOS_BLK_E*`; `MCSOS_BLK_OK` is a normal return.  A driver may also return a
code of its own. -/
inductive Err where
  | einval
  | erange
  | efull
  | eio
  | enodev
  | other (code : ℤ)
  deriving DecidableEq, Repr

/-- `struct mcsos_blk_device` -/
structure Device where
  blockSize : ℕ
  blockCount : ℕ

/-- `mcsos_blk_validate_range` -/
def validateRange (dev : Device) (lba count : ℕ) : Except Err Unit :=
  if count = 0 then .error .einval
  else if dev.blockCount ≤ lba then .error .erange
  else if dev.blockCount - lba < count then .error .erange
  else .ok ()

/-- A request for one block is checked for its place only. -/
theorem validateRange_one (dev : Device) (lba : ℕ) :
    validateRange dev lba 1 = if lba < dev.blockCount then .ok () else .error .erange := by
  rw [validateRange, if_neg Nat.one_ne_zero]
  by_cases h : lba < dev.blockCount
  · rw [if_neg (Nat.not_le.mpr h), if_neg (by omega), if_pos h]
  · rw [if_pos (Nat.le_of_not_lt h), if_neg h]

/-! ## The RAM driver -/

/-- `struct mcsos_ramblk` -/
structure Ramblk where
  storage : ℕ → UInt8
  storageSize : ℕ

/-- The bytes of a request to the RAM driver: `byte_offset` and `byte_count` of
`mcsos_ramblk_rw`. -/
def ramblkSpan (dev : Device) (ram : Ramblk) (lba count : ℕ) : Except Err (ℕ × ℕ) :=
  let byteOffset := lba * dev.blockSize % 2 ^ 64
  let byteCount := count * dev.blockSize % 2 ^ 64
  if ram.storageSize < byteOffset ∨ ram.storageSize - byteOffset < byteCount then .error .erange
  else .ok (byteOffset, byteCount)

/-- `mcsos_ramblk_read`; it returns the bytes copied to the buffer. -/
def ramblkRead (dev : Device) (ram : Ramblk) (lba count : ℕ) : Except Err (List UInt8) := do
  let (byteOffset, byteCount) ← ramblkSpan dev ram lba count
  pure ((List.range byteCount).map fun i => ram.storage (byteOffset + i))

/-- `mcsos_ramblk_write` -/
def ramblkWrite (dev : Device) (ram : Ramblk) (lba count : ℕ) (buffer : ℕ → UInt8) :
    Except Err Ramblk := do
  let (byteOffset, byteCount) ← ramblkSpan dev ram lba count
  pure { ram with
    storage := fun i =>
      if byteOffset ≤ i ∧ i < byteOffset + byteCount then buffer (i - byteOffset)
      else ram.storage i }

/-- `mcsos_is_power_of_two_u32` -/
def isPowerOfTwo (value : ℕ) : Bool := value != 0 && value &&& (value - 1) == 0

/-- `mcsos_ramblk_init` -/
def ramblkInit (storage : ℕ → UInt8) (storageSize blockSize : ℕ) : Except Err (Device × Ramblk) :=
  if blockSize < 512 ∨ isPowerOfTwo blockSize = false then .error .einval
  else if storageSize < blockSize ∨ storageSize % blockSize ≠ 0 then .error .einval
  else .ok (⟨blockSize, storageSize / blockSize⟩, ⟨storage, storageSize⟩)

/-! ## Requests to RAM devices -/

section Requests

variable {δ : Type} [DecidableEq δ] (devs : δ → Device)

/-- `mcsos_blk_read` on a RAM device; it returns the bytes copied to the buffer. -/
def blkRead (mem : δ → Ramblk) (p : δ) (lba count : ℕ) : Except Err (List UInt8) := do
  validateRange (devs p) lba count
  ramblkRead (devs p) (mem p) lba count

/-- `mcsos_blk_write` on a RAM device. -/
def blkWrite (mem : δ → Ramblk) (p : δ) (lba count : ℕ) (buffer : ℕ → UInt8) :
    Except Err (δ → Ramblk) := do
  validateRange (devs p) lba count
  let ram ← ramblkWrite (devs p) (mem p) lba count buffer
  pure (Function.update mem p ram)

end Requests

end Mcsos.Block
