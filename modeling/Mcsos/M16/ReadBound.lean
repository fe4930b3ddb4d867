import Mcsos.M16.Check
import Mcsos.M16.FileWrite

/-!
# Files that are longer than a block

A file has one block, and `m16_fsck` refuses an inode whose size is above 512.  `m16_read_file`
checks the size only against the buffer of its caller.  With an inode of a larger size, and a buffer
that is large enough, it copies what follows the block on its stack.

`read_inside_iff` says that this is the only way for it to deliver anything but the first bytes of
the block.
-/

namespace Mcsos.M16

open Bytes

variable {dev dev' dev'' : Dev} {sb : Block} {behind : ℕ → UInt8} {name : CStr} {outCap ino : ℕ}
  {data : List UInt8}

/-- The first used entry with the name refers to inode `ino`. -/
def NamesInode (dev : Dev) (name : CStr) (ino : ℕ) : Prop :=
  ∃ slot, findDirent (dev.blocks rootDirLba) name = .ok slot ∧
    direntIno (dev.blocks rootDirLba) slot = ino

/-- The block of inode `ino`. -/
def fileBlock (dev : Dev) (ino : ℕ) : Block := dev.blocks (inodeDirect0 (inodeTable dev.blocks) ino)

/-- What `m16_read_file` returns is at most one block, and the first bytes of the block of the
inode. -/
def ReadInside (dev : Dev) (behind : ℕ → UInt8) (name : CStr) (outCap : ℕ) : Prop :=
  ∀ data dev', readFile behind name outCap dev = (.ok data, dev') →
    data.length ≤ blockSize ∧ ∃ ino, NamesInode dev' name ino ∧
      data = (List.range data.length).map (fileBlock dev' ino).byte

/-- The checks of `m16_read_file`, on a mounted device, for the inode of the name. -/
structure Readable (dev : Dev) (name : CStr) (outCap ino : ℕ) : Prop where
  directory : rootDirLba < dev.totalBlocks
  entry : NamesInode dev name ino
  ino_lt : ino < maxInodes
  used : inodeUsed (inodeTable dev.blocks) ino ≠ 0
  kind : inodeKind (inodeTable dev.blocks) ino = 1
  fits : inodeSize (inodeTable dev.blocks) ino ≤ outCap
  block : dev.validLba (inodeDirect0 (inodeTable dev.blocks) ino)

/-- The name belongs to a file of more than one block, which passes all checks of
`m16_read_file`. -/
def Oversized (dev : Dev) (name : CStr) (outCap : ℕ) : Prop :=
  ∃ ino, Readable dev name outCap ino ∧ blockSize < inodeSize (inodeTable dev.blocks) ino

theorem NamesInode.unique {ino' : ℕ} (h : NamesInode dev name ino) (h' : NamesInode dev name ino') :
    ino = ino' := by
  obtain ⟨slot, hfind, rfl⟩ := h
  obtain ⟨slot', hfind', rfl⟩ := h'
  rw [hfind] at hfind'
  cases hfind'
  rfl

/-! ## What the call does -/

/-- Behind the mount, the inode table and the directory are read from the device that it left. -/
theorem readFile_eq_ok (hmount : mount dev = (.ok sb, dev'))
    (h : readFile behind name outCap dev = (.ok data, dev'')) :
    dev'' = dev' ∧ ∃ ino, Readable dev' name outCap ino ∧
      data = copyOut (fileBlock dev' ino) behind (inodeSize (inodeTable dev'.blocks) ino) := by
  unfold readFile at h
  rw [Act.bind_of_ok hmount] at h
  obtain ⟨inodes, s, htable, h₁⟩ := Act.bind_eq_ok h
  obtain rfl := loadInodeTableFrom_eq_ok htable
  obtain ⟨dir, s, hdir, h₂⟩ := Act.bind_eq_ok h₁
  obtain ⟨hroot, rfl, rfl⟩ := readBlock_eq_ok hdir
  rw [loadInodeTable_eq hroot.1] at htable
  obtain rfl : inodeTable dev'.blocks = inodes := Except.ok.inj (congrArg Prod.fst htable)
  cases hfind : findDirent (dev'.blocks rootDirLba) name with
  | error e =>
    rw [hfind] at h₂
    cases h₂
  | ok slot =>
    rw [hfind, ofExcept, Act.pure_bind] at h₂
    obtain ⟨hcorrupt, h₃⟩ := Act.failIf_bind_eq_ok h₂
    rw [Act.get_bind_apply] at h₃
    obtain ⟨hrange, h₄⟩ := Act.failIf_bind_eq_ok h₃
    obtain ⟨blk, s, hblk, h₅⟩ := Act.bind_eq_ok h₄
    obtain ⟨hvalid, rfl, rfl⟩ := readBlock_eq_ok hblk
    push Not at hcorrupt hrange
    have hread : Readable dev' name outCap (direntIno (dev'.blocks rootDirLba) slot) :=
      ⟨hroot.1, ⟨slot, hfind, rfl⟩, hcorrupt.1, hcorrupt.2.1, hcorrupt.2.2, hrange.1, hvalid⟩
    exact ⟨(congrArg Prod.snd h₅).symm, _, hread, (Except.ok.inj (congrArg Prod.fst h₅)).symm⟩

theorem readFile_of_readable (hmount : mount dev = (.ok sb, dev'))
    (h : Readable dev' name outCap ino) :
    readFile behind name outCap dev =
      (.ok (copyOut (fileBlock dev' ino) behind (inodeSize (inodeTable dev'.blocks) ino)),
        dev') := by
  obtain ⟨slot, hfind, rfl⟩ := h.entry
  have hdir : dev'.validLba rootDirLba := ⟨h.directory, by decide⟩
  have hcorrupt : ¬ (maxInodes ≤ direntIno (dev'.blocks rootDirLba) slot ∨
      inodeUsed (inodeTable dev'.blocks) (direntIno (dev'.blocks rootDirLba) slot) = 0 ∨
      inodeKind (inodeTable dev'.blocks) (direntIno (dev'.blocks rootDirLba) slot) ≠ 1) :=
    not_or.mpr ⟨Nat.not_le.mpr h.ino_lt, not_or.mpr ⟨h.used, not_not.mpr h.kind⟩⟩
  have hrange :
      ¬ (outCap < inodeSize (inodeTable dev'.blocks) (direntIno (dev'.blocks rootDirLba) slot) ∨
      dev'.totalBlocks ≤
        inodeDirect0 (inodeTable dev'.blocks) (direntIno (dev'.blocks rootDirLba) slot)) :=
    not_or.mpr ⟨Nat.not_lt.mpr h.fits, Nat.not_le.mpr h.block.1⟩
  rw [readFile, Act.bind_of_ok hmount, Act.bind_of_ok (loadInodeTable_eq h.directory),
    Act.bind_of_ok (readBlock_of_valid hdir), hfind, ofExcept, Act.pure_bind,
    Act.failIf_bind_of_not hcorrupt, Act.get_bind_apply, Act.failIf_bind_of_not hrange,
    Act.bind_of_ok (readBlock_of_valid h.block)]
  rfl

theorem length_copyOut (blk : Block) (behind : ℕ → UInt8) (size : ℕ) :
    (copyOut blk behind size).length = size := by
  rw [copyOut, List.length_map, List.length_range]

/-- **Reads inside of the block.**  On every device that `m16_mount` accepts, for every name and
every buffer, `m16_read_file` delivers nothing but the first bytes of the block of the file exactly
if the name does not belong to a file of more than one block that fits into the buffer. -/
theorem read_inside_iff (dev dev' : Dev) (sb : Block) (hmount : mount dev = (.ok sb, dev'))
    (behind : ℕ → UInt8) (name : CStr) (outCap : ℕ) :
    ReadInside dev behind name outCap ↔ ¬ Oversized dev' name outCap := by
  constructor
  · rintro hinside ⟨ino, hread, hlarge⟩
    have hlength := (hinside _ _ (readFile_of_readable hmount hread)).1
    rw [length_copyOut] at hlength
    exact absurd hlength (Nat.not_le.mpr hlarge)
  · intro hnot data dev'' hcall
    obtain ⟨hdev, ino, hread, hdata⟩ := readFile_eq_ok hmount hcall
    subst hdev hdata
    have hsize : inodeSize (inodeTable dev''.blocks) ino ≤ blockSize := by
      by_contra hlarge
      exact hnot ⟨ino, hread, Nat.not_le.mp hlarge⟩
    rw [length_copyOut]
    exact ⟨hsize, ino, hread.entry, copyOut_of_le _ _ hsize⟩

/-! ## An image with a long file -/

/-- A formatted device with one file, `f`, of the given size. -/
def oneFile (size : ℕ) : Dev :=
  { (format devInit).2 with
    blocks := fun lba =>
      if lba = rootDirLba then setDirent Bytes.zero 0 1 ⟨[102], by decide⟩ 1
      else if inodeTableLba ≤ lba ∧ lba < rootDirLba then
        tableBlock (setInode Bytes.zero 1 1 1 size dataStartLba) (lba - inodeTableLba)
      else (format devInit).2.blocks lba }

theorem oneFile_totalBlocks (size : ℕ) : (oneFile size).totalBlocks = maxBlocks := by
  unfold oneFile
  dsimp only
  exact format_atRest.1.total

theorem oneFile_blocks_of_lt {size lba : ℕ} (h : lba < inodeTableLba) :
    (oneFile size).blocks lba = (format devInit).2.blocks lba := by
  have hdir : lba ≠ rootDirLba := by
    simp only [inodeTableLba, rootDirLba] at h ⊢
    omega
  simp only [oneFile, if_neg hdir, if_neg (not_and_of_not_left _ (Nat.not_le.mpr h))]

/-- The journal and the superblock are those of the device `base`. -/
theorem mount_of_same {base : Dev} (hrest : AtRest base) (htotal : dev.totalBlocks = maxBlocks)
    (hsame : ∀ lba < inodeTableLba, dev.blocks lba = base.blocks lba) :
    mount dev = (.ok (dev.blocks 0), dev) := by
  have hvalid : ∀ lba ≤ 24, dev.validLba lba := fun lba hlba =>
    ⟨hlba.trans_lt (htotal ▸ by decide), hlba.trans_lt (by decide)⟩
  have hheader : headerEmpty (dev.blocks journalStart) := by
    rw [hsame _ (by decide)]
    exact hrest.sound.header
  have hsuper : SuperOk (dev.blocks 0) := by
    rw [hsame _ (by decide)]
    exact hrest.fs.super
  exact mount_of_super (journalRecover_of_empty (hvalid _ (by decide)) hheader)
    (hvalid 0 (by decide)) hsuper

theorem mount_oneFile (size : ℕ) : ∃ sb, mount (oneFile size) = (.ok sb, oneFile size) :=
  ⟨_, mount_of_same format_atRest.1 (oneFile_totalBlocks size) fun _ => oneFile_blocks_of_lt⟩

theorem inodeTable_oneFile (size : ℕ) :
    inodeTable (oneFile size).blocks = setInode Bytes.zero 1 1 1 size dataStartLba := by
  apply inodeTable_eq_of_blocks
  intro i hi
  have hdir : inodeTableLba + i ≠ rootDirLba := by
    simp only [inodeTableLba, rootDirLba]
    omega
  have htable : inodeTableLba ≤ inodeTableLba + i ∧ inodeTableLba + i < rootDirLba := by
    simp only [inodeTableLba, rootDirLba]
    omega
  simp only [oneFile, if_neg hdir, if_pos htable, Nat.add_sub_cancel_left]

theorem oneFile_blocks_rootDir (size : ℕ) :
    (oneFile size).blocks rootDirLba = setDirent Bytes.zero 0 1 ⟨[102], by decide⟩ 1 := by
  simp only [oneFile, if_true]

theorem readable_oneFile {size : ℕ} (hsize : size < 2 ^ 32) (hfits : size ≤ outCap) :
    Readable (oneFile size) ⟨[102], by decide⟩ outCap 1 where
  directory := oneFile_totalBlocks size ▸ (by decide)
  entry := by
    unfold NamesInode
    rw [oneFile_blocks_rootDir]
    exact ⟨0, by decide, by decide⟩
  ino_lt := by decide
  used := by
    rw [inodeTable_oneFile, inodeUsed_setInode (by decide)]
    decide
  kind := by
    rw [inodeTable_oneFile, inodeKind_setInode (by decide)]
    rfl
  fits := by
    rwa [inodeTable_oneFile, inodeSize_setInode (by decide), Nat.mod_eq_of_lt hsize]
  block := by
    rw [inodeTable_oneFile, inodeDirect0_setInode (by decide)]
    exact ⟨oneFile_totalBlocks size ▸ (by decide), by decide⟩

/-- With a file of 513 bytes, the byte behind the block is delivered. -/
theorem read_behind_block :
    (∃ sb, mount (oneFile 513) = (.ok sb, oneFile 513)) ∧
      ¬ ReadInside (oneFile 513) (fun _ => 0) ⟨[102], by decide⟩ 513 := by
  obtain ⟨sb, hmount⟩ := mount_oneFile 513
  refine ⟨⟨sb, hmount⟩, fun hinside => ?_⟩
  have hread : Readable (oneFile 513) ⟨[102], by decide⟩ 513 1 :=
    readable_oneFile (by decide) (Nat.le_refl 513)
  have hlength := (hinside _ _ (readFile_of_readable hmount hread)).1
  rw [length_copyOut, inodeTable_oneFile, inodeSize_setInode (by decide)] at hlength
  exact absurd hlength (by decide)

/-- A file of 512 bytes is read as it should be. -/
theorem read_inside_iff_block :
    (∃ sb, mount (oneFile 512) = (.ok sb, oneFile 512)) ∧
      ReadInside (oneFile 512) (fun _ => 0) ⟨[102], by decide⟩ 1024 := by
  obtain ⟨sb, hmount⟩ := mount_oneFile 512
  refine ⟨⟨sb, hmount⟩, (read_inside_iff _ _ sb hmount _ _ 1024).mpr ?_⟩
  rintro ⟨ino, hread, hlarge⟩
  have hentry : NamesInode (oneFile 512) ⟨[102], by decide⟩ 1 :=
    (readable_oneFile (by decide) (Nat.le_refl 512)).entry
  obtain rfl := hread.entry.unique hentry
  rw [inodeTable_oneFile, inodeSize_setInode (by decide)] at hlarge
  exact absurd hlarge (by decide)

end Mcsos.M16
