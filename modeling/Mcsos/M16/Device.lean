import Mcsos.Lib.Act
import Mcsos.Lib.Bitmap
import Mcsos.Lib.WriteLog

/-!
# The block device of the journaled filesystem

The device of `m16_mcsfs_journal.c` is a structure in memory: 128 blocks of 512 bytes, the number
of blocks in use, a count of the writes made, and the fault injection counter `fail_after`.  A
negative counter disables fault injection; a counter `k ≥ 0` lets `k` more writes through and
makes every later one fail with `M16_E_IO` and no effect, which is how a loss of power after `k`
block writes is played.

Pointers are never null in this model, so the null checks of the source have no counterpart.
-/

namespace Mcsos.M16

/-- `M16_BLOCK_SIZE` -/
@[simp] abbrev blockSize : ℕ := 512

/-- `M16_MAX_BLOCKS` -/
@[simp] abbrev maxBlocks : ℕ := 128

/-- `M16_MAX_INODES` -/
@[simp] abbrev maxInodes : ℕ := 16

/-- `M16_MAX_NAME` -/
@[simp] abbrev maxName : ℕ := 32

/-- `M16_MAGIC` -/
@[simp] abbrev magic : ℕ := 0x4d43534631564a31

/-- `M16_JMAGIC` -/
@[simp] abbrev jmagic : ℕ := 0x4d43534a524e4c31

/-- `M16_VERSION` -/
@[simp] abbrev version : ℕ := 1

/-- `M16_J_EMPTY` -/
@[simp] abbrev jEmpty : ℕ := 0

/-- `M16_J_COMMITTED` -/
@[simp] abbrev jCommitted : ℕ := 2

/-- `M16_JOURNAL_MAX_RECORDS` -/
@[simp] abbrev journalMaxRecords : ℕ := 8

/-- `M16_JOURNAL_START` -/
@[simp] abbrev journalStart : ℕ := 1

/-- `M16_JOURNAL_BLOCKS`, that is `1 + 2 * M16_JOURNAL_MAX_RECORDS` -/
@[simp] abbrev journalBlocks : ℕ := 17

/-- `M16_INODE_BITMAP_LBA`, right behind the journal -/
@[simp] abbrev inodeBitmapLba : ℕ := 18

/-- `M16_BLOCK_BITMAP_LBA` -/
@[simp] abbrev blockBitmapLba : ℕ := 19

/-- `M16_INODE_TABLE_LBA` -/
@[simp] abbrev inodeTableLba : ℕ := 20

/-- `M16_INODE_TABLE_BLOCKS` -/
@[simp] abbrev inodeTableBlocks : ℕ := 4

/-- `M16_ROOT_DIR_LBA` -/
@[simp] abbrev rootDirLba : ℕ := 24

/-- `M16_DATA_START_LBA` -/
@[simp] abbrev dataStartLba : ℕ := 25

/-- The error codes `M16_E_*`; `M16_E_OK` is a normal return. -/
inductive Err where
  | inval
  | io
  | nospc
  | exists
  | noent
  | corrupt
  | toolong
  deriving DecidableEq, Repr

/-- The content of one block. -/
abbrev Block : Type := Bytes 512

/-- `struct m16_blockdev`.  Only the blocks below `maxBlocks` exist in the source; no operation
reads or writes another one. -/
structure Dev where
  blocks : ℕ → Block
  totalBlocks : ℕ
  writes : ℕ
  failAfter : ℤ

/-- A function of the source on the device. -/
abbrev DevM (α : Type) : Type := Act Dev Err α

/-- Continues with a value, or returns an error code found without touching the device. -/
def ofExcept {α : Type} : Except Err α → DevM α
  | .ok a => pure a
  | .error e => Act.fail e

/-- `m16_valid_lba` -/
def Dev.validLba (dev : Dev) (lba : ℕ) : Prop := lba < dev.totalBlocks ∧ lba < maxBlocks

instance (dev : Dev) (lba : ℕ) : Decidable (dev.validLba lba) :=
  inferInstanceAs (Decidable (_ ∧ _))

/-- `m16_read_block` -/
def readBlock (lba : ℕ) : DevM Block := fun dev =>
  if dev.validLba lba then (.ok (dev.blocks lba), dev) else (.error .inval, dev)

/-- The device after an accepted write. -/
def Dev.store (dev : Dev) (lba : ℕ) (data : Block) : Dev :=
  { dev with
    blocks := Function.update dev.blocks lba data
    writes := (dev.writes + 1) % 2 ^ 64
    failAfter := if 0 < dev.failAfter then dev.failAfter - 1 else dev.failAfter }

/-- `m16_write_block` -/
def writeBlock (lba : ℕ) (data : Block) : DevM Unit := fun dev =>
  if ¬ dev.validLba lba then (.error .inval, dev)
  else if dev.failAfter = 0 then (.error .io, dev)
  else (.ok (), dev.store lba data)

/-- `m16_dev_init` -/
def devInit : Dev :=
  { blocks := fun _ => Bytes.zero, totalBlocks := maxBlocks, writes := 0, failAfter := -1 }

/-- `m16_checksum` of the first `n` bytes of `src`: 32-bit FNV-1a. -/
def checksum (src : ℕ → UInt8) (n : ℕ) : UInt32 :=
  (List.range n).foldl (fun h i => (h ^^^ (src i).toUInt32) * 16777619) 2166136261

/-- `m16_bitmap_set` -/
def bitmapSet (bm : Block) (bit : ℕ) : Block := bm.setBit bit

/-- `m16_bitmap_get` -/
def bitmapGet (bm : Block) (bit : ℕ) : Bool := bm.testBit bit

/-! ## Single reads and writes -/

variable {dev : Dev} {lba : ℕ}

theorem readBlock_of_valid (h : dev.validLba lba) :
    readBlock lba dev = (.ok (dev.blocks lba), dev) :=
  if_pos h

theorem readBlock_of_invalid (h : ¬ dev.validLba lba) : readBlock lba dev = (.error .inval, dev) :=
  if_neg h

theorem writeBlock_of_valid (h : dev.validLba lba) (hfail : dev.failAfter ≠ 0) (data : Block) :
    writeBlock lba data dev = (.ok (), dev.store lba data) := by
  rw [writeBlock, if_neg (not_not.mpr h), if_neg hfail]

theorem writeBlock_of_exhausted (h : dev.validLba lba) (hfail : dev.failAfter = 0)
    (data : Block) : writeBlock lba data dev = (.error .io, dev) := by
  rw [writeBlock, if_neg (not_not.mpr h), if_pos hfail]

@[simp] theorem store_totalBlocks (data : Block) :
    (dev.store lba data).totalBlocks = dev.totalBlocks := rfl

@[simp] theorem store_blocks (data : Block) :
    (dev.store lba data).blocks = Function.update dev.blocks lba data := rfl

end Mcsos.M16
