import Mcsos.Lib.Bitmap
import Mcsos.Lib.CString
import Mcsos.Lib.Prog

/-!
# The on-disk layout of MCSFS1

Block 0 is the superblock, blocks 1 and 2 are the inode and block bitmaps, blocks 3 to 6 the inode
table with eight inodes of 60 bytes in each block, block 7 the root directory with sixteen entries
of 32 bytes; file data starts at block 8.  The device is reached through callbacks that may fail
with any error code, so functions of the source are programs against a store of blocks.

Structures are read and written at their byte offsets.

* `struct mcsfs1_super_disk`, 512 bytes: `magic` 0, `version` 4, `block_size` 8, `block_count` 12,
  `inode_count` 16, `inode_bmap_lba` 20, `block_bmap_lba` 24, `inode_table_lba` 28,
  `inode_table_blocks` 32, `root_ino` 36, `root_dir_lba` 40, `data_start_lba` 44, `clean` 48.
* `struct mcsfs1_inode_disk`, 60 bytes: `mode` 0, `links` 2, `size` 4, `direct[8]` 8.
* `struct mcsfs1_dirent_disk`, 32 bytes: `ino` 0, `type` 4, `name[27]` 5.

Pointers are never null in this model, so the null checks of the source have no counterpart.
-/

namespace Mcsos.Mcsfs1

@[simp] abbrev blockSize : ℕ := 512

@[simp] abbrev magic : ℕ := 0x31465343

@[simp] abbrev version : ℕ := 1

@[simp] abbrev maxInodes : ℕ := 32

@[simp] abbrev directBlocks : ℕ := 8

@[simp] abbrev maxName : ℕ := 27

@[simp] abbrev rootIno : ℕ := 1

@[simp] abbrev modeFile : ℕ := 1

@[simp] abbrev modeDir : ℕ := 2

@[simp] abbrev sbLba : ℕ := 0

@[simp] abbrev inodeBmapLba : ℕ := 1

@[simp] abbrev blockBmapLba : ℕ := 2

@[simp] abbrev inodeTableLba : ℕ := 3

@[simp] abbrev inodeTableBlocks : ℕ := 4

@[simp] abbrev rootDirLba : ℕ := 7

@[simp] abbrev dataStartLba : ℕ := 8

@[simp] abbrev minBlocks : ℕ := 16

@[simp] abbrev direntCount : ℕ := 16

/-- The error codes `MCSFS1_ERR_*`; `MCSFS1_ERR_OK` is a normal return.  A callback may also return
a code of its own. -/
inductive Err where
  | inval
  | io
  | nospc
  | exist
  | noent
  | nametoolong
  | corrupt
  | isdir
  | range
  | other (code : ℤ)
  deriving DecidableEq, Repr

/-- The content of one block. -/
abbrev Block : Type := Bytes 512

/-- The content of a device. -/
abbrev Disk : Type := ℕ → Block

/-- A function of the source on the device. -/
abbrev DiskM (α : Type) : Type := Prog ℕ Block Err α

/-- `struct mcsfs1_blkdev` without its callbacks, which are those of the program. -/
structure Blkdev where
  blockCount : ℕ

/-- `struct mcsfs1_mount` -/
structure Mount where
  dev : Blkdev
  blockCount : ℕ
  dataStart : ℕ

/-- Ends with the error code `e` if `c` holds. -/
def failIf (c : Prop) [Decidable c] (e : Err) : DiskM Unit := if c then .fail e else .ret ()

/-! ## Names -/

/-- `mcsfs_strlen_bound` -/
def strlenBound (s : ℕ → UInt8) (maxPlusOne : ℕ) : ℕ := scanLen s maxPlusOne

/-- `valid_name`; it returns the length. -/
def validName (name : CStr) : DiskM ℕ :=
  let len := strlenBound name.char (maxName + 1)
  if len = 0 ∨ maxName < len then .fail .nametoolong else .ret len

/-- `mcsfs_memcmp` of `n` bytes, as far as callers look at it: whether it returns `0`. -/
def memcmpEq (a b : ℕ → UInt8) (n : ℕ) : Bool := (List.range n).all fun i => a i == b i

/-! ## Blocks -/

/-- `dev_read` -/
def devRead (dev : Blkdev) (lba : ℕ) : DiskM Block :=
  if dev.blockCount ≤ lba then .fail .range else Prog.readBlock lba

/-- `dev_write` -/
def devWrite (dev : Blkdev) (lba : ℕ) (data : Block) : DiskM Unit :=
  if dev.blockCount ≤ lba then .fail .range else Prog.writeBlock lba data

/-- `dev_flush` -/
def devFlush (_dev : Blkdev) : DiskM Unit := Prog.flushStore

/-- `bit_set` -/
def bitSet (bm : Block) (idx : ℕ) : Block := bm.setBit idx

/-- `bit_clear` -/
def bitClear (bm : Block) (idx : ℕ) : Block := bm.clearBit idx

/-- `bit_test` -/
def bitTest (bm : Block) (idx : ℕ) : Bool := bm.testBit idx

/-- `load_bmaps` -/
def loadBmaps (dev : Blkdev) : DiskM (Block × Block) := do
  let ib ← devRead dev inodeBmapLba
  let bb ← devRead dev blockBmapLba
  pure (ib, bb)

/-- `store_bmaps` -/
def storeBmaps (dev : Blkdev) (ib bb : Block) : DiskM Unit := do
  devWrite dev inodeBmapLba ib
  devWrite dev blockBmapLba bb

/-- `load_super` -/
def loadSuper (dev : Blkdev) : DiskM Block := do
  let sb ← devRead dev sbLba
  failIf (sb.u32 0 ≠ magic ∨ sb.u32 4 ≠ version ∨ sb.u32 8 ≠ blockSize) .corrupt
  failIf (sb.u32 12 ≠ dev.blockCount ∨ sb.u32 16 ≠ maxInodes) .corrupt
  failIf (sb.u32 20 ≠ inodeBmapLba ∨ sb.u32 24 ≠ blockBmapLba ∨ sb.u32 28 ≠ inodeTableLba) .corrupt
  failIf (sb.u32 36 ≠ rootIno ∨ sb.u32 40 ≠ rootDirLba ∨ sb.u32 44 ≠ dataStartLba) .corrupt
  failIf (sb.u32 12 ≤ sb.u32 44) .corrupt
  pure sb

/-! ## Inodes -/

/-- `struct mcsfs1_inode_disk` -/
abbrev Inode : Type := Bytes 60

namespace Inode

/-- `inode.mode` -/
def mode (x : Inode) : ℕ := x.u16 0

/-- `inode.size` -/
def size (x : Inode) : ℕ := x.u32 4

/-- `inode.direct[i]` -/
def direct (x : Inode) (i : ℕ) : ℕ := x.u32 (8 + 4 * i)

/-- The assignment to `inode.size`. -/
def setSize (x : Inode) (size : ℕ) : Inode := x.setU32 4 size

/-- The assignment to `inode.direct[i]`. -/
def setDirect (x : Inode) (i lba : ℕ) : Inode := x.setU32 (8 + 4 * i) lba

/-- An inode cleared with `memset` and filled in as `mcsfs1_format` and `mcsfs1_create` do. -/
def make (mode size direct0 : ℕ) : Inode :=
  (((Bytes.zero.setU16 0 mode).setU16 2 1).setU32 4 size).setU32 8 direct0

end Inode

/-- The number of inodes in a block, `MCSFS1_BLOCK_SIZE / sizeof(struct mcsfs1_inode_disk)`. -/
@[simp] abbrev perBlock : ℕ := 8

/-- The block of inode `ino`. -/
def inodeLba (ino : ℕ) : ℕ := inodeTableLba + (ino - 1) / perBlock

/-- The offset of inode `ino` in its block. -/
def inodeOff (ino : ℕ) : ℕ := (ino - 1) % perBlock * 60

/-- `read_inode` -/
def readInode (dev : Blkdev) (ino : ℕ) : DiskM Inode := do
  failIf (ino = 0 ∨ maxInodes < ino) .inval
  failIf (dataStartLba ≤ inodeLba ino) .corrupt
  let block ← devRead dev (inodeLba ino)
  pure (block.slice (inodeOff ino))

/-- `write_inode` -/
def writeInode (dev : Blkdev) (ino : ℕ) (inode : Inode) : DiskM Unit := do
  failIf (ino = 0 ∨ maxInodes < ino) .inval
  failIf (dataStartLba ≤ inodeLba ino) .corrupt
  let block ← devRead dev (inodeLba ino)
  devWrite dev (inodeLba ino) (block.splice (inodeOff ino) 60 inode.byte)

/-! ## The directory block -/

/-- `de[i].ino` -/
def direntIno (dir : Block) (i : ℕ) : ℕ := dir.u32 (32 * i)

/-- The memory from `de[i].name` on: the 27 bytes of the name, then whatever follows the entry.
`beyond` is the byte that follows the directory block in memory. -/
def direntName (beyond : UInt8) (dir : Block) (i : ℕ) : ℕ → UInt8 := fun j =>
  if 32 * i + 5 + j < blockSize then dir.byte (32 * i + 5 + j) else beyond

/-- The condition of `find_dirent` on entry `i`, for a name of `nameLen` bytes. -/
def direntMatches (beyond : UInt8) (dir : Block) (name : CStr) (nameLen i : ℕ) : Bool :=
  direntIno dir i != 0 && strlenBound (direntName beyond dir i) (maxName + 1) == nameLen &&
    memcmpEq (direntName beyond dir i) name.char nameLen

/-- The entry written by `mcsfs1_create`. -/
def dirent (ino : ℕ) (name : CStr) (nameLen : ℕ) : Bytes 32 :=
  let e := ((Bytes.zero : Bytes 32).setU32 0 ino).splice 4 1 fun _ => UInt8.ofNat modeFile
  e.splice 5 nameLen name.char

/-- `de[slot] = entry` -/
def setDirent (dir : Block) (slot : ℕ) (entry : Bytes 32) : Block :=
  dir.splice (32 * slot) 32 entry.byte

end Mcsos.Mcsfs1
