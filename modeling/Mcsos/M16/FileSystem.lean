import Mcsos.Lib.CString
import Mcsos.M16.Journal

/-!
# The journaled filesystem

Block 0 is the superblock, blocks 18 and 19 are the inode and block bitmaps, blocks 20 to 23 the
inode table, block 24 the root directory; file data starts at block 25.  A file is one inode with
one data block.  `writeFileEx` creates a file by two journal transactions: the first one commits
the bitmaps and the inode table, the second one the directory and the data.

Structures are read and written at their byte offsets.

* `struct m16_super`: `magic` 0, `version` 8, `block_size` 12, `total_blocks` 16,
  `journal_start` 20, `journal_blocks` 24, `inode_bitmap_lba` 28, `block_bitmap_lba` 32,
  `inode_table_lba` 36, `inode_table_blocks` 40, `root_dir_lba` 44, `data_start_lba` 48,
  `clean_generation` 52.
* `struct m16_inode`, 128 bytes: `used` 0, `kind` 4, `size` 8, `direct[4]` 12.
* `struct m16_dirent`, 40 bytes: `used` 0, `ino` 4, `name[32]` 8.
-/

namespace Mcsos.M16

open Act (failIf)

/-! ## Names -/

/-- `m16_strlen_bounded` -/
def strlenBounded (s : ℕ → UInt8) (max : ℕ) : ℕ := scanLen s max

/-- The loop of `m16_streq`, `remaining` characters before its bound. -/
def streqFrom (a b : ℕ → UInt8) : (remaining i : ℕ) → Bool
  | 0, _ => true
  | remaining + 1, i =>
      if a i ≠ b i then false else if a i = 0 then true else streqFrom a b remaining (i + 1)

/-- `m16_streq` -/
def streq (a b : ℕ → UInt8) : Bool := streqFrom a b maxName 0

/-! ## The inode table and the directory in memory -/

/-- The array `struct m16_inode inodes[16]`. -/
abbrev InodeTable : Type := Bytes 2048

/-- `inodes[ino].used` -/
def inodeUsed (t : InodeTable) (ino : ℕ) : ℕ := t.u32 (128 * ino)

/-- `inodes[ino].kind` -/
def inodeKind (t : InodeTable) (ino : ℕ) : ℕ := t.u32 (128 * ino + 4)

/-- `inodes[ino].size` -/
def inodeSize (t : InodeTable) (ino : ℕ) : ℕ := t.u32 (128 * ino + 8)

/-- `inodes[ino].direct[0]` -/
def inodeDirect0 (t : InodeTable) (ino : ℕ) : ℕ := t.u32 (128 * ino + 12)

/-- The assignments `inodes[ino].used = …; .kind = …; .size = …; .direct[0] = …`. -/
def setInode (t : InodeTable) (ino used kind size direct0 : ℕ) : InodeTable :=
  (((t.setU32 (128 * ino) used).setU32 (128 * ino + 4) kind).setU32 (128 * ino + 8) size).setU32
    (128 * ino + 12) direct0

/-- The number of directory entries in a block. -/
@[simp] abbrev direntCount : ℕ := 12

/-- `dir[i].used` -/
def direntUsed (dir : Block) (i : ℕ) : ℕ := dir.u32 (40 * i)

/-- `dir[i].ino` -/
def direntIno (dir : Block) (i : ℕ) : ℕ := dir.u32 (40 * i + 4)

/-- `dir[i].name` -/
def direntName (dir : Block) (i : ℕ) : ℕ → UInt8 := fun j => dir.byte (40 * i + 8 + j)

/-- The assignments to `dir[slot]` in `m16_write_file_ex`. -/
def setDirent (dir : Block) (slot ino : ℕ) (name : CStr) (nameLen : ℕ) : Block :=
  let dir := (dir.setU32 (40 * slot) 1).setU32 (40 * slot + 4) ino
  let dir := dir.splice (40 * slot + 8) maxName fun _ => 0
  dir.splice (40 * slot + 8) nameLen name.char

/-- The loop of `m16_load_inode_table`, from table block `i` on. -/
def loadInodeTableFrom : (remaining i : ℕ) → InodeTable → DevM InodeTable
  | 0, _, t => pure t
  | remaining + 1, i, t => do
      let b ← readBlock (inodeTableLba + i)
      loadInodeTableFrom remaining (i + 1) (t.splice (i * blockSize) blockSize b.byte)

/-- `m16_load_inode_table`.  The array it fills is uninitialised before; every byte is read. -/
def loadInodeTable : DevM InodeTable := loadInodeTableFrom inodeTableBlocks 0 Bytes.zero

/-- Block `i` of the inode table in memory. -/
def tableBlock (t : InodeTable) (i : ℕ) : Block := t.slice (i * blockSize)

/-- `m16_store_inode_table` -/
def storeInodeTable (tx : Tx) (t : InodeTable) : Except Err Tx :=
  if journalMaxRecords < tx.length + inodeTableBlocks then .error .nospc
  else .ok (tx ++ (List.range inodeTableBlocks).map fun i => ⟨inodeTableLba + i, tableBlock t i⟩)

/-- `m16_find_free_inode` -/
def findFreeInode (ib : Block) : Except Err ℕ :=
  match (List.range' 1 (maxInodes - 1)).find? fun i => !bitmapGet ib i with
  | some i => .ok i
  | none => .error .nospc

/-- `m16_find_free_block` -/
def findFreeBlock (bb : Block) : Except Err ℕ :=
  match (List.range' dataStartLba (maxBlocks - dataStartLba)).find? fun i => !bitmapGet bb i with
  | some i => .ok i
  | none => .error .nospc

/-- `m16_find_dirent` -/
def findDirent (dir : Block) (name : CStr) : Except Err ℕ :=
  match (List.range direntCount).find? fun i =>
      direntUsed dir i != 0 && streq (direntName dir i) name.char with
  | some i => .ok i
  | none => .error .noent

/-- `m16_find_free_dirent` -/
def findFreeDirent (dir : Block) : Except Err ℕ :=
  match (List.range direntCount).find? fun i => direntUsed dir i == 0 with
  | some i => .ok i
  | none => .error .nospc

/-! ## Operations -/

/-- The superblock written by `m16_format`. -/
def formatSuper (totalBlocks : ℕ) : Block :=
  let sb := ((Bytes.zero.setU64 0 magic).setU32 8 version).setU32 12 blockSize
  let sb := ((sb.setU32 16 totalBlocks).setU32 20 journalStart).setU32 24 journalBlocks
  let sb := ((sb.setU32 28 inodeBitmapLba).setU32 32 blockBitmapLba).setU32 36 inodeTableLba
  let sb := ((sb.setU32 40 inodeTableBlocks).setU32 44 rootDirLba).setU32 48 dataStartLba
  sb.setU32 52 1

/-- The loop of `m16_format` that writes the inode table, from table block `i` on. -/
def formatInodeTable (t : InodeTable) : (remaining i : ℕ) → DevM Unit
  | 0, _ => pure ()
  | remaining + 1, i => do
      writeBlock (inodeTableLba + i) (tableBlock t i)
      formatInodeTable t remaining (i + 1)

/-- `m16_format` -/
def format : DevM Unit := do
  Act.modify fun dev => { dev with blocks := fun _ => Bytes.zero }
  let dev ← Act.get
  writeBlock 0 (formatSuper dev.totalBlocks)
  let ib : Block := bitmapSet Bytes.zero 0
  let bb : Block := (List.range dataStartLba).foldl bitmapSet Bytes.zero
  writeBlock inodeBitmapLba ib
  writeBlock blockBitmapLba bb
  formatInodeTable (setInode Bytes.zero 0 1 2 0 rootDirLba) inodeTableBlocks 0
  writeBlock rootDirLba Bytes.zero
  journalClear

/-- `m16_mount`; it returns the superblock. -/
def mount : DevM Block := do
  journalRecover
  let sb ← readBlock 0
  failIf (sb.u64 0 ≠ magic ∨ sb.u32 8 ≠ version ∨ sb.u32 12 ≠ blockSize) .corrupt
  failIf (sb.u32 48 ≠ dataStartLba ∨ sb.u32 44 ≠ rootDirLba) .corrupt
  pure sb

/-- `m16_write_file_ex`; `size` of the source is the length of `data`. -/
def writeFileEx (name : CStr) (data : List UInt8) (stopAfterCommitRecord : Bool) : DevM Unit := do
  let nameLen := strlenBounded name.char maxName
  failIf (nameLen = 0 ∨ maxName ≤ nameLen) .toolong
  failIf (blockSize < data.length) .inval
  let sb ← mount
  let ib ← readBlock inodeBitmapLba
  let bb ← readBlock blockBitmapLba
  let inodes ← loadInodeTable
  let dir ← readBlock rootDirLba
  failIf ((findDirent dir name).isOk = true) .exists
  let ino ← ofExcept (findFreeInode ib)
  let dataBlock ← ofExcept (findFreeBlock bb)
  let slot ← ofExcept (findFreeDirent dir)
  let dataBlk : Block := Bytes.zero.splice 0 data.length fun i => data.getD i 0
  let ib := bitmapSet ib ino
  let bb := bitmapSet bb dataBlock
  let inodes := setInode inodes ino 1 1 data.length dataBlock
  let dir := setDirent dir slot ino name nameLen
  let tx ← ofExcept (txAdd [] inodeBitmapLba ib)
  let tx ← ofExcept (txAdd tx blockBitmapLba bb)
  let tx ← ofExcept (storeInodeTable tx inodes)
  journalCommit tx (sb.u32 52 + 1) false
  let tx ← ofExcept (txAdd [] rootDirLba dir)
  let tx ← ofExcept (txAdd tx dataBlock dataBlk)
  journalCommit tx (sb.u32 52 + 2) stopAfterCommitRecord

/-- `m16_write_file` -/
def writeFile (name : CStr) (data : List UInt8) : DevM Unit := writeFileEx name data false

/-- `m16_copy` of `size` bytes out of a 512-byte buffer; `behind` is the memory that follows the
buffer, which a copy of more than 512 bytes runs into. -/
def copyOut (blk : Block) (behind : ℕ → UInt8) (size : ℕ) : List UInt8 :=
  (List.range size).map fun i => if i < blockSize then blk.byte i else behind (i - blockSize)

/-- `m16_read_file`; the bytes it returns are those copied to `out`, `*out_size` their number. -/
def readFile (behind : ℕ → UInt8) (name : CStr) (outCap : ℕ) : DevM (List UInt8) := do
  let _ ← mount
  let inodes ← loadInodeTable
  let dir ← readBlock rootDirLba
  let slot ← ofExcept (findDirent dir name)
  let ino := direntIno dir slot
  failIf (maxInodes ≤ ino ∨ inodeUsed inodes ino = 0 ∨ inodeKind inodes ino ≠ 1) .corrupt
  let dev ← Act.get
  failIf (outCap < inodeSize inodes ino ∨ dev.totalBlocks ≤ inodeDirect0 inodes ino) .inval
  let blk ← readBlock (inodeDirect0 inodes ino)
  pure (copyOut blk behind (inodeSize inodes ino))

/-- The checks `m16_fsck` makes of directory entry `i`; unused entries pass. -/
def direntConsistent (totalBlocks : ℕ) (ib bb : Block) (inodes : InodeTable) (dir : Block)
    (i : ℕ) : Bool :=
  direntUsed dir i == 0 ||
    let ino := direntIno dir i
    let direct0 := inodeDirect0 inodes ino
    !(decide (maxInodes ≤ ino) || !bitmapGet ib ino) &&
    !(inodeUsed inodes ino == 0 || inodeKind inodes ino != 1 ||
      decide (blockSize < inodeSize inodes ino)) &&
    !(decide (direct0 < dataStartLba) || decide (totalBlocks ≤ direct0) || !bitmapGet bb direct0)

/-- `m16_fsck` -/
def fsck : DevM Unit := do
  let _ ← mount
  let ib ← readBlock inodeBitmapLba
  let bb ← readBlock blockBitmapLba
  let inodes ← loadInodeTable
  let dir ← readBlock rootDirLba
  failIf (bitmapGet ib 0 = false ∨ inodeUsed inodes 0 ≠ 1 ∨ inodeKind inodes 0 ≠ 2 ∨
    inodeDirect0 inodes 0 ≠ rootDirLba) .corrupt
  failIf ((List.range dataStartLba).any (fun b => !bitmapGet bb b) = true) .corrupt
  let dev ← Act.get
  failIf ((List.range direntCount).any (fun i =>
    !direntConsistent dev.totalBlocks ib bb inodes dir i) = true) .corrupt

end Mcsos.M16
