import Mcsos.M16.Atomicity
import Mcsos.M16.FileSystem

/-!
# The state of the filesystem

`FsOk b` is the invariant of the blocks outside the journal: the superblock is the one mounting
accepts, the root inode and the reserved blocks are marked, and every used directory entry refers
to a marked inode of kind file whose block is a marked data block.  On a device with an empty
journal these are exactly the conditions under which `mount` and `fsck` succeed without writing,
and then `readFile` is a function of the blocks alone (`readFile_eq`).

The second half of the file says what the assignments of `m16_write_file_ex` to an inode and to a
directory entry change and what they leave alone.
-/

namespace Mcsos.M16

open Bytes

/-! ## Loading the inode table -/

/-- The inode table on the blocks `b`. -/
def inodeTable (b : ℕ → Block) : InodeTable :=
  ofFn fun i => (b (inodeTableLba + i / 512)).byte (i % 512)

theorem loadInodeTable_eq {dev : Dev} (htotal : rootDirLba < dev.totalBlocks) :
    loadInodeTable dev = (.ok (inodeTable dev.blocks), dev) := by
  have hvalid : ∀ {i}, i < 4 → dev.validLba (inodeTableLba + i) := by
    intro i hi
    simp only [Dev.validLba, rootDirLba, inodeTableLba, maxBlocks] at htotal ⊢
    omega
  simp only [loadInodeTable, loadInodeTableFrom]
  rw [Act.bind_of_ok (readBlock_of_valid (hvalid (by decide))),
    Act.bind_of_ok (readBlock_of_valid (hvalid (by decide))),
    Act.bind_of_ok (readBlock_of_valid (hvalid (by decide))),
    Act.bind_of_ok (readBlock_of_valid (hvalid (by decide)))]
  refine Prod.ext (congrArg Except.ok (ext_byte fun i hi => ?_)) rfl
  -- the four copies tile the table, so byte `i` comes from block `i / 512`
  rw [inodeTable, byte_ofFn _ hi]
  simp only [byte_splice _ _ hi, blockSize, Nat.zero_mul, Nat.zero_add, Nat.one_mul, Nat.reduceAdd,
    Nat.reduceMul, inodeTableLba]
  split_ifs with h3 h2 h1 h0
  · rw [show 20 + i / 512 = 23 by omega, show i % 512 = i - 1536 by omega]
  · rw [show 20 + i / 512 = 22 by omega, show i % 512 = i - 1024 by omega]
  · rw [show 20 + i / 512 = 21 by omega, show i % 512 = i - 512 by omega]
  · rw [show 20 + i / 512 = 20 by omega, show i % 512 = i - 0 by omega]
  · omega

/-- Writing the blocks of a table makes it the inode table. -/
theorem inodeTable_eq_of_blocks {b : ℕ → Block} {t : InodeTable}
    (h : ∀ i < 4, b (inodeTableLba + i) = tableBlock t i) : inodeTable b = t := by
  apply ext_byte
  intro i hi
  have hblock : i / 512 < 4 := by omega
  have hoffset : i % 512 < 512 := Nat.mod_lt _ (by decide)
  rw [inodeTable, byte_ofFn _ hi, h _ hblock, tableBlock, byte_slice _ hoffset]
  congr 1
  simp only [blockSize]
  omega

theorem inodeTable_congr {b c : ℕ → Block}
    (h : ∀ i < 4, b (inodeTableLba + i) = c (inodeTableLba + i)) :
    inodeTable b = inodeTable c := by
  apply ext_byte
  intro i hi
  rw [inodeTable, inodeTable, byte_ofFn _ hi, byte_ofFn _ hi, h _ (by omega)]

/-! ## The invariant -/

/-- What the filesystem keeps outside the journal. -/
structure FsState where
  super : Block
  ib : Block
  bb : Block
  inodes : InodeTable
  dir : Block
  /-- Data block `i` is block `dataStartLba + i` of the device. -/
  data : ℕ → Block

/-- The state of the filesystem on the blocks `b`. -/
def fsState (b : ℕ → Block) : FsState where
  super := b 0
  ib := b inodeBitmapLba
  bb := b blockBitmapLba
  inodes := inodeTable b
  dir := b rootDirLba
  data := fun i => b (dataStartLba + i)

/-- The journal is not part of the state. -/
theorem fsState_congr {b c : ℕ → Block} (h : ∀ lba, ¬ inJournal lba → b lba = c lba) :
    fsState b = fsState c := by
  have hout : ∀ lba, lba = 0 ∨ 18 ≤ lba → b lba = c lba := by
    intro lba hlba
    apply h
    simp only [inJournal, journalStart, journalBlocks]
    omega
  have htable : inodeTable b = inodeTable c :=
    inodeTable_congr fun i _ => hout _ (by simp only [inodeTableLba]; omega)
  have hdata : (fun i => b (dataStartLba + i)) = fun i => c (dataStartLba + i) :=
    funext fun i => hout _ (by simp only [dataStartLba]; omega)
  simp only [fsState, htable, hdata, hout 0 (by decide), hout inodeBitmapLba (by decide),
    hout blockBitmapLba (by decide), hout rootDirLba (by decide)]

/-- Inode `ino` is a file: it is marked and used, and its one block is a marked data block. -/
structure InodeOk (s : FsState) (ino : ℕ) : Prop where
  ino_lt : ino < maxInodes
  marked : bitmapGet s.ib ino = true
  used : inodeUsed s.inodes ino ≠ 0
  kind : inodeKind s.inodes ino = 1
  size : inodeSize s.inodes ino ≤ blockSize
  data_low : dataStartLba ≤ inodeDirect0 s.inodes ino
  data_high : inodeDirect0 s.inodes ino < maxBlocks
  data_marked : bitmapGet s.bb (inodeDirect0 s.inodes ino) = true

/-- The superblock passes the checks of `m16_mount`. -/
structure SuperOk (sb : Block) : Prop where
  magic : sb.u64 0 = magic
  version : sb.u32 8 = version
  blockSize : sb.u32 12 = blockSize
  dataStart : sb.u32 48 = dataStartLba
  rootDir : sb.u32 44 = rootDirLba

/-- The invariant of the filesystem. -/
structure FsOk (s : FsState) : Prop where
  super : SuperOk s.super
  root_marked : bitmapGet s.ib 0 = true
  root_used : inodeUsed s.inodes 0 = 1
  root_kind : inodeKind s.inodes 0 = 2
  root_direct0 : inodeDirect0 s.inodes 0 = rootDirLba
  reserved : ∀ i < dataStartLba, bitmapGet s.bb i = true
  entries : ∀ i < direntCount, direntUsed s.dir i ≠ 0 → InodeOk s (direntIno s.dir i)

/-! ## Operations on a device at rest -/

/-- A device of any size with an empty journal and a good filesystem inside of it. -/
structure Sound (dev : Dev) : Prop where
  total_low : rootDirLba < dev.totalBlocks
  total_high : dev.totalBlocks ≤ maxBlocks
  header : headerEmpty (dev.blocks journalStart)
  fs : FsOk (fsState dev.blocks)
  inside : ∀ i < direntCount, direntUsed (fsState dev.blocks).dir i ≠ 0 →
    inodeDirect0 (fsState dev.blocks).inodes (direntIno (fsState dev.blocks).dir i) <
      dev.totalBlocks

/-- A device of 128 blocks with an empty journal and a good filesystem. -/
structure AtRest (dev : Dev) : Prop where
  total : dev.totalBlocks = maxBlocks
  header : dev.blocks journalStart = zero
  fs : FsOk (fsState dev.blocks)

variable {dev : Dev}

theorem AtRest.sound (h : AtRest dev) : Sound dev where
  total_low := h.total.symm ▸ (by decide : 24 < 128)
  total_high := h.total.le
  header := h.header ▸ headerEmpty_zero
  fs := h.fs
  inside := fun i hi hused => h.total.symm ▸ (h.fs.entries i hi hused).data_high

theorem AtRest.withFailAfter (h : AtRest dev) (fail : ℤ) : AtRest (dev.withFailAfter fail) :=
  ⟨h.total, h.header, h.fs⟩

/-- The blocks up to the root directory are there. -/
theorem Sound.valid (h : Sound dev) {lba : ℕ} (hlba : lba ≤ rootDirLba) : dev.validLba lba :=
  ⟨hlba.trans_lt h.total_low, hlba.trans_lt (by decide)⟩

/-- Behind the recovery, mounting reads nothing but the superblock. -/
theorem mount_of_super {dev' : Dev} (hrecover : journalRecover dev = (.ok (), dev'))
    (hvalid : dev'.validLba 0) (hsuper : SuperOk (dev'.blocks 0)) :
    mount dev = (.ok (dev'.blocks 0), dev') := by
  rw [mount, Act.bind_of_ok hrecover, Act.bind_of_ok (readBlock_of_valid hvalid),
    Act.failIf_bind_of_not (by simp [hsuper.magic, hsuper.version, hsuper.blockSize]),
    Act.failIf_bind_of_not (by simp [hsuper.dataStart, hsuper.rootDir])]
  rfl

/-- Once recovery has brought the device to rest, mounting accepts it. -/
theorem mount_of_recover {dev' : Dev} (hrecover : journalRecover dev = (.ok (), dev'))
    (h : Sound dev') : mount dev = (.ok (dev'.blocks 0), dev') :=
  mount_of_super hrecover (h.valid (by decide)) h.fs.super

/-- Mounting accepts a good superblock and, with the journal empty, changes nothing. -/
theorem mount_eq (h : Sound dev) : mount dev = (.ok (dev.blocks 0), dev) :=
  mount_of_recover (journalRecover_of_empty (h.valid (by decide)) h.header) h

/-- The four reads that follow a mount in `m16_write_file_ex` and `m16_fsck`. -/
theorem read_metadata {γ : Type} (h : Sound dev)
    (f : Block → Block → Block → InodeTable → Block → DevM γ) :
    (do
      let sb ← mount
      let ib ← readBlock inodeBitmapLba
      let bb ← readBlock blockBitmapLba
      let inodes ← loadInodeTable
      let dir ← readBlock rootDirLba
      f sb ib bb inodes dir : DevM γ) dev =
      f (fsState dev.blocks).super (fsState dev.blocks).ib (fsState dev.blocks).bb
        (fsState dev.blocks).inodes (fsState dev.blocks).dir dev := by
  rw [Act.bind_of_ok (mount_eq h), Act.bind_of_ok (readBlock_of_valid (h.valid (by decide))),
    Act.bind_of_ok (readBlock_of_valid (h.valid (by decide))),
    Act.bind_of_ok (loadInodeTable_eq h.total_low),
    Act.bind_of_ok (readBlock_of_valid (h.valid (by decide)))]
  rfl

/-- The two reads that follow a mount in `m16_read_file`. -/
theorem read_directory {γ : Type} (h : Sound dev) (f : InodeTable → Block → DevM γ) :
    (do
      let _ ← mount
      let inodes ← loadInodeTable
      let dir ← readBlock rootDirLba
      f inodes dir : DevM γ) dev =
      f (fsState dev.blocks).inodes (fsState dev.blocks).dir dev := by
  rw [Act.bind_of_ok (mount_eq h), Act.bind_of_ok (loadInodeTable_eq h.total_low),
    Act.bind_of_ok (readBlock_of_valid (h.valid (by decide)))]
  rfl

theorem InodeOk.consistent {s : FsState} {i total : ℕ} (h : InodeOk s (direntIno s.dir i))
    (hinside : inodeDirect0 s.inodes (direntIno s.dir i) < total) :
    direntConsistent total s.ib s.bb s.inodes s.dir i = true := by
  have hino : ¬ maxInodes ≤ direntIno s.dir i := Nat.not_le.mpr h.ino_lt
  have hsize : ¬ blockSize < inodeSize s.inodes (direntIno s.dir i) := Nat.not_lt.mpr h.size
  have hlow : ¬ inodeDirect0 s.inodes (direntIno s.dir i) < dataStartLba :=
    Nat.not_lt.mpr h.data_low
  have hhigh : ¬ total ≤ inodeDirect0 s.inodes (direntIno s.dir i) := Nat.not_le.mpr hinside
  simp only [direntConsistent, decide_eq_false hino, decide_eq_false hsize, decide_eq_false hlow,
    decide_eq_false hhigh, h.marked, h.kind, h.data_marked, beq_eq_false_iff_ne.mpr h.used]
  simp

/-- The filesystem check passes. -/
theorem fsck_eq (h : Sound dev) : fsck dev = (.ok (), dev) := by
  have hroot : ¬ (bitmapGet (fsState dev.blocks).ib 0 = false ∨
      inodeUsed (fsState dev.blocks).inodes 0 ≠ 1 ∨ inodeKind (fsState dev.blocks).inodes 0 ≠ 2 ∨
      inodeDirect0 (fsState dev.blocks).inodes 0 ≠ rootDirLba) := by
    simp [h.fs.root_marked, h.fs.root_used, h.fs.root_kind, h.fs.root_direct0]
  have hreserved : ¬ ((List.range dataStartLba).any
      (fun b => !bitmapGet (fsState dev.blocks).bb b) = true) := by
    rw [List.any_eq_true]
    rintro ⟨i, hi, hclear⟩
    simp [h.fs.reserved i (List.mem_range.mp hi)] at hclear
  have hentries : ¬ ((List.range direntCount).any (fun i =>
      !direntConsistent dev.totalBlocks (fsState dev.blocks).ib (fsState dev.blocks).bb
        (fsState dev.blocks).inodes (fsState dev.blocks).dir i) = true) := by
    rw [List.any_eq_true]
    rintro ⟨i, hi, hbad⟩
    rw [Bool.not_eq_true'] at hbad
    by_cases hused : direntUsed (fsState dev.blocks).dir i = 0
    · simp [direntConsistent, hused] at hbad
    · have hlt := List.mem_range.mp hi
      rw [(h.fs.entries i hlt hused).consistent (h.inside i hlt hused)] at hbad
      cases hbad
  rw [fsck, read_metadata h, Act.failIf_bind_of_not hroot, Act.failIf_bind_of_not hreserved,
    Act.get_bind_apply, Act.failIf, if_neg hentries]
  rfl

/-- What `m16_read_file` returns, as a function of the state. -/
def lookup (s : FsState) (behind : ℕ → UInt8) (name : CStr) (outCap : ℕ) :
    Except Err (List UInt8) :=
  match findDirent s.dir name with
  | .error e => .error e
  | .ok slot =>
      let ino := direntIno s.dir slot
      if outCap < inodeSize s.inodes ino then .error .inval
      else .ok (copyOut (s.data (inodeDirect0 s.inodes ino - dataStartLba)) behind
        (inodeSize s.inodes ino))

theorem findDirent_ok {dir : Block} {name : CStr} {slot : ℕ} (h : findDirent dir name = .ok slot) :
    slot < direntCount ∧ direntUsed dir slot ≠ 0 ∧
      streq (direntName dir slot) name.char = true := by
  unfold findDirent at h
  split at h
  case h_1 i hfind =>
      cases h
      have hmem := List.mem_of_find?_eq_some hfind
      have hp := List.find?_some hfind
      simp only [Bool.and_eq_true, bne_iff_ne] at hp
      exact ⟨List.mem_range.mp hmem, hp⟩
  case h_2 => cases h

/-- Reading a file is a lookup in the state, and changes nothing. -/
theorem readFile_eq (h : Sound dev) (behind : ℕ → UInt8) (name : CStr) (outCap : ℕ) :
    readFile behind name outCap dev = (lookup (fsState dev.blocks) behind name outCap, dev) := by
  have hdata : ∀ lba, dataStartLba ≤ lba →
      (fsState dev.blocks).data (lba - dataStartLba) = dev.blocks lba := by
    intro lba hlba
    exact congrArg dev.blocks (Nat.add_sub_cancel' hlba)
  have hentries := h.fs.entries
  have hinside := h.inside
  rw [readFile, read_directory h, lookup]
  generalize fsState dev.blocks = s at hdata hentries hinside
  cases hfind : findDirent s.dir name with
  | error e => rfl
  | ok slot =>
      obtain ⟨hslot, hused, _⟩ := findDirent_ok hfind
      have hentry := hentries slot hslot hused
      -- the entry is good, so of the checks only the capacity can fail
      have hcorrupt : ¬ (maxInodes ≤ direntIno s.dir slot ∨
          inodeUsed s.inodes (direntIno s.dir slot) = 0 ∨
          inodeKind s.inodes (direntIno s.dir slot) ≠ 1) :=
        not_or.mpr ⟨Nat.not_le.mpr hentry.ino_lt,
          not_or.mpr ⟨hentry.used, not_not.mpr hentry.kind⟩⟩
      have hrange : inodeDirect0 s.inodes (direntIno s.dir slot) < dev.totalBlocks :=
        hinside slot hslot hused
      rw [ofExcept, Act.pure_bind, Act.failIf_bind_of_not hcorrupt, Act.get_bind_apply]
      by_cases hcap : outCap < inodeSize s.inodes (direntIno s.dir slot)
      · rw [Act.failIf_bind_of_pos (Or.inl hcap)]
        simp only [if_pos hcap]
      · rw [Act.failIf_bind_of_not (not_or.mpr ⟨hcap, Nat.not_le.mpr hrange⟩),
          Act.bind_of_ok (readBlock_of_valid ⟨hrange, hentry.data_high⟩)]
        simp only [if_neg hcap, hdata _ hentry.data_low]
        rfl

theorem readFile_result (h : Sound dev) (behind : ℕ → UInt8) (name : CStr) (outCap : ℕ) :
    (readFile behind name outCap dev).1 = lookup (fsState dev.blocks) behind name outCap :=
  congrArg Prod.fst (readFile_eq h behind name outCap)

end Mcsos.M16
