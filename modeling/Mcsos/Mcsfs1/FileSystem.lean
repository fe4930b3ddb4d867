import Mcsos.Mcsfs1.Device

/-!
# The operations of MCSFS1

A file is one inode with up to eight data blocks, and one directory entry.  Creating a file marks
an inode and a block, writes the inode and then the directory entry; unlinking goes the other way.
Writing allocates the missing blocks one at a time, writes the data and then the inode.

`find_dirent` looks at a directory block on its own stack; `beyond` is the byte behind it.
-/

namespace Mcsos.Mcsfs1

open Prog (ofExcept)

/-! ## Searching and allocating -/

/-- `find_dirent`; it returns the slot and the inode number. -/
def findDirent (beyond : UInt8) (dev : Blkdev) (name : CStr) : DiskM (ℕ × ℕ) := do
  let nameLen ← validName name
  let block ← devRead dev rootDirLba
  match (List.range direntCount).find? (direntMatches beyond block name nameLen) with
  | some i => pure (i, direntIno block i)
  | none => .fail .noent

/-- The first free inode number in the bitmap `ib`. -/
def freeIno (ib : ℕ → Bool) : Option ℕ := (List.range' 2 (maxInodes - 1)).find? fun i => !ib i

/-- The first free data block in the bitmap `bb` of a device of `blockCount` blocks. -/
def freeBlock (blockCount : ℕ) (bb : ℕ → Bool) : Option ℕ :=
  (List.range' dataStartLba (blockCount - dataStartLba)).find? fun b => !bb b

/-- `alloc_inode_block`; it returns the inode number and the block. -/
def allocInodeBlock (dev : Blkdev) : DiskM (ℕ × ℕ) := do
  let (ib, bb) ← loadBmaps dev
  match freeIno (bitTest ib) with
  | none => .fail .nospc
  | some ino =>
      match freeBlock dev.blockCount (bitTest bb) with
      | none => .fail .nospc
      | some lba => do
          storeBmaps dev (bitSet ib ino) (bitSet bb lba)
          pure (ino, lba)

/-- `alloc_data_block` -/
def allocDataBlock (dev : Blkdev) : DiskM ℕ := do
  let (ib, bb) ← loadBmaps dev
  match freeBlock dev.blockCount (bitTest bb) with
  | none => .fail .nospc
  | some b => do
      storeBmaps dev ib (bitSet bb b)
      pure b

/-- The loop of `free_inode_and_blocks` over the direct blocks. -/
def clearDirect (blockCount : ℕ) (inode : Inode) (bb : Block) : Block :=
  (List.range directBlocks).foldl (fun bb i =>
    if inode.direct i ≠ 0 ∧ inode.direct i < blockCount then bitClear bb (inode.direct i)
      else bb) bb

/-- `free_inode_and_blocks` -/
def freeInodeAndBlocks (dev : Blkdev) (ino : ℕ) (inode : Inode) : DiskM Unit := do
  let (ib, bb) ← loadBmaps dev
  storeBmaps dev (bitClear ib ino) (clearDirect dev.blockCount inode bb)

/-! ## Formatting and mounting -/

/-- The superblock written by `mcsfs1_format`. -/
def formatSuper (blockCount : ℕ) : Block :=
  let sb := ((Bytes.zero.setU32 0 magic).setU32 4 version).setU32 8 blockSize
  let sb := ((sb.setU32 12 blockCount).setU32 16 maxInodes).setU32 20 inodeBmapLba
  let sb := ((sb.setU32 24 blockBmapLba).setU32 28 inodeTableLba).setU32 32 inodeTableBlocks
  let sb := ((sb.setU32 36 rootIno).setU32 40 rootDirLba).setU32 44 dataStartLba
  sb.setU32 48 1

/-- The loop of `mcsfs1_format` that clears the device, from block `lba` on. -/
def clearBlocks (dev : Blkdev) : (remaining lba : ℕ) → DiskM Unit
  | 0, _ => pure ()
  | remaining + 1, lba => do
      devWrite dev lba Bytes.zero
      clearBlocks dev remaining (lba + 1)

/-- `mcsfs1_format` -/
def format (dev : Blkdev) : DiskM Unit := do
  failIf (dev.blockCount < minBlocks ∨ blockSize * 8 < dev.blockCount) .inval
  clearBlocks dev dev.blockCount 0
  devWrite dev sbLba (formatSuper dev.blockCount)
  let ib := bitSet (bitSet Bytes.zero 0) rootIno
  let bb := bitSet ((List.range dataStartLba).foldl bitSet Bytes.zero) rootDirLba
  storeBmaps dev ib bb
  writeInode dev rootIno (Inode.make modeDir blockSize rootDirLba)
  devWrite dev rootDirLba Bytes.zero
  devFlush dev

/-- `mcsfs1_mount` -/
def mount (dev : Blkdev) : DiskM Mount := do
  let sb ← loadSuper dev
  let root ← readInode dev rootIno
  failIf (root.mode ≠ modeDir ∨ root.direct 0 ≠ rootDirLba) .corrupt
  pure ⟨dev, sb.u32 12, sb.u32 44⟩

/-! ## Files -/

/-- The first free slot of a directory block. -/
def freeSlot (dir : Block) : Option ℕ :=
  (List.range direntCount).find? fun i => direntIno dir i == 0

/-- `mcsfs1_create`, after it has found no entry of that name. -/
def createNew (mnt : Mount) (name : CStr) (nameLen : ℕ) : DiskM Unit := do
  let dirBlock ← devRead mnt.dev rootDirLba
  match freeSlot dirBlock with
  | none => .fail .nospc
  | some slot => do
      let (ino, firstData) ← allocInodeBlock mnt.dev
      writeInode mnt.dev ino (Inode.make modeFile 0 firstData)
      devWrite mnt.dev rootDirLba (setDirent dirBlock slot (dirent ino name nameLen))
      devFlush mnt.dev

/-- `mcsfs1_create`.  Any failure of the search counts as not found. -/
def create (beyond : UInt8) (mnt : Mount) (name : CStr) : DiskM Unit := do
  let nameLen ← validName name
  match ← (findDirent beyond mnt.dev name).attempt with
  | .ok _ => .fail .exist
  | .error _ => createNew mnt name nameLen

/-- The number of blocks for `len` bytes; an empty file has one. -/
def blocksNeeded (len : ℕ) : ℕ :=
  let n := (len + blockSize - 1) / blockSize
  if n = 0 then 1 else n

/-- The loop of `mcsfs1_write` that allocates missing blocks, from `direct[i]` on. -/
def allocDirect (dev : Blkdev) : (remaining i : ℕ) → Inode → DiskM Inode
  | 0, _, inode => pure inode
  | remaining + 1, i, inode =>
      if inode.direct i = 0 then do
        let b ← allocDataBlock dev
        allocDirect dev remaining (i + 1) (inode.setDirect i b)
      else allocDirect dev remaining (i + 1) inode

/-- The block that holds `chunk` bytes of `data` from `written` on. -/
def dataBlock (data : List UInt8) (written chunk : ℕ) : Block :=
  Bytes.zero.splice 0 chunk fun j => data.getD (written + j) 0

/-- The loop of `mcsfs1_write` that writes the data, from `direct[i]` on. -/
def writeData (dev : Blkdev) (inode : Inode) (data : List UInt8) :
    (remaining i written : ℕ) → DiskM Unit
  | 0, _, _ => pure ()
  | remaining + 1, i, written => do
      let remain := data.length - written
      let chunk := if blockSize < remain then blockSize else remain
      devWrite dev (inode.direct i) (dataBlock data written chunk)
      writeData dev inode data remaining (i + 1) (written + chunk)

/-- `mcsfs1_write`; `len` of the source is the length of `data`. -/
def write (beyond : UInt8) (mnt : Mount) (name : CStr) (data : List UInt8) : DiskM Unit := do
  failIf (directBlocks * blockSize < data.length) .range
  let (_, ino) ← findDirent beyond mnt.dev name
  let inode ← readInode mnt.dev ino
  failIf (inode.mode ≠ modeFile) .isdir
  let inode ← allocDirect mnt.dev (blocksNeeded data.length) 0 inode
  writeData mnt.dev inode data (blocksNeeded data.length) 0 0
  writeInode mnt.dev ino (inode.setSize data.length)
  devFlush mnt.dev

/-- The loop of `mcsfs1_read`, from `direct[i]` on; it returns the bytes copied to `buf`. -/
def readData (dev : Blkdev) (inode : Inode) : (remaining i remain : ℕ) → DiskM (List UInt8)
  | 0, _, _ => pure []
  | remaining + 1, i, remain =>
      if remain = 0 then pure [] else do
        failIf (inode.direct i = 0) .corrupt
        let block ← devRead dev (inode.direct i)
        let chunk := if blockSize < remain then blockSize else remain
        let rest ← readData dev inode remaining (i + 1) (remain - chunk)
        pure ((List.range chunk).map block.byte ++ rest)

/-- `mcsfs1_read`; it returns the bytes copied to `buf` and `*out_len`. -/
def read (beyond : UInt8) (mnt : Mount) (name : CStr) (cap : ℕ) : DiskM (List UInt8 × ℕ) := do
  let (_, ino) ← findDirent beyond mnt.dev name
  let inode ← readInode mnt.dev ino
  failIf (inode.mode ≠ modeFile) .isdir
  failIf (cap < inode.size) .range
  let bytes ← readData mnt.dev inode directBlocks 0 inode.size
  pure (bytes, inode.size)

/-- `mcsfs1_unlink` -/
def unlink (beyond : UInt8) (mnt : Mount) (name : CStr) : DiskM Unit := do
  let (slot, ino) ← findDirent beyond mnt.dev name
  let inode ← readInode mnt.dev ino
  let dirBlock ← devRead mnt.dev rootDirLba
  devWrite mnt.dev rootDirLba (setDirent dirBlock slot Bytes.zero)
  freeInodeAndBlocks mnt.dev ino inode
  devFlush mnt.dev

/-- `mcsfs1_fsck` -/
def fsck (dev : Blkdev) : DiskM Unit := do
  let sb ← loadSuper dev
  let root ← readInode dev rootIno
  failIf (root.mode ≠ modeDir) .corrupt
  failIf (root.direct 0 ≠ rootDirLba) .corrupt
  failIf (directBlocks * blockSize < root.size) .corrupt
  failIf (dev.blockCount ≤ root.direct 0) .corrupt
  failIf (sb.u32 48 ≠ 1) .corrupt
  let ib ← devRead dev inodeBmapLba
  let bb ← devRead dev blockBmapLba
  failIf ((List.range dataStartLba).any (fun b => !bitTest bb b) = true) .corrupt
  let dirblk ← devRead dev rootDirLba
  failIf ((List.range direntCount).any (fun i => direntIno dirblk i != 0 &&
    (decide (maxInodes < direntIno dirblk i) || !bitTest ib (direntIno dirblk i))) = true) .corrupt

end Mcsos.Mcsfs1
