import Mcsos.M16.FileState
import Mathlib.Data.List.Find

/-!
# Writing a file, transaction by transaction

`m16_write_file_ex` chooses an inode, a data block and a directory slot (`plan`) and then commits
two transactions.  The first one takes the state `s` to `s.reserve …`: inode and block are marked
and the inode is filled in, but no directory entry refers to it.  The second one takes that to
`….link …`: the entry and the data appear together.  Both keep `FsOk`, and neither changes what a
lookup of another name finds.
-/

namespace Mcsos.M16

open Bytes

/-! ## Assignments to an inode -/

section SetInode

variable {t : InodeTable} {ino j o used kind size direct0 : ℕ}

/-- The other inodes are left alone. -/
theorem setInode_u32_of_ne (hj : j ≠ ino) (ho : o + 4 ≤ 128) :
    (setInode t ino used kind size direct0).u32 (128 * j + o) = t.u32 (128 * j + o) := by
  simp (disch := omega) only [setInode, u32, setU32, word_splice_of_disjoint]

theorem inodeUsed_setInode_of_ne (hj : j ≠ ino) :
    inodeUsed (setInode t ino used kind size direct0) j = inodeUsed t j :=
  setInode_u32_of_ne (o := 0) hj (by decide)

theorem inodeKind_setInode_of_ne (hj : j ≠ ino) :
    inodeKind (setInode t ino used kind size direct0) j = inodeKind t j :=
  setInode_u32_of_ne hj (by decide)

theorem inodeSize_setInode_of_ne (hj : j ≠ ino) :
    inodeSize (setInode t ino used kind size direct0) j = inodeSize t j :=
  setInode_u32_of_ne hj (by decide)

theorem inodeDirect0_setInode_of_ne (hj : j ≠ ino) :
    inodeDirect0 (setInode t ino used kind size direct0) j = inodeDirect0 t j :=
  setInode_u32_of_ne hj (by decide)

theorem inodeUsed_setInode (hino : ino < maxInodes) :
    inodeUsed (setInode t ino used kind size direct0) ino = used % 2 ^ 32 := by
  simp only [maxInodes] at hino
  simp (disch := omega) only [inodeUsed, setInode, u32, setU32, word_splice_of_disjoint,
    word_splice_wordBytes]
  rfl

theorem inodeKind_setInode (hino : ino < maxInodes) :
    inodeKind (setInode t ino used kind size direct0) ino = kind % 2 ^ 32 := by
  simp only [maxInodes] at hino
  simp (disch := omega) only [inodeKind, setInode, u32, setU32, word_splice_of_disjoint,
    word_splice_wordBytes]
  rfl

theorem inodeSize_setInode (hino : ino < maxInodes) :
    inodeSize (setInode t ino used kind size direct0) ino = size % 2 ^ 32 := by
  simp only [maxInodes] at hino
  simp (disch := omega) only [inodeSize, setInode, u32, setU32, word_splice_of_disjoint,
    word_splice_wordBytes]
  rfl

theorem inodeDirect0_setInode (hino : ino < maxInodes) :
    inodeDirect0 (setInode t ino used kind size direct0) ino = direct0 % 2 ^ 32 := by
  simp only [maxInodes] at hino
  simp (disch := omega) only [inodeDirect0, setInode, u32, setU32, word_splice_wordBytes]
  rfl

end SetInode

/-! ## Assignments to a directory entry -/

section SetDirent

variable {dir : Block} {slot ino i : ℕ} {name : CStr}

/-- The other entries are left alone. -/
theorem setDirent_byte_of_ne {j : ℕ} (hi : i ≠ slot) (hj : j < 40) (hname : name.length ≤ 32) :
    (setDirent dir slot ino name name.length).byte (40 * i + j) = dir.byte (40 * i + j) := by
  simp (disch := omega) only [setDirent, setU32, maxName, byte_splice_of_outside]

theorem direntUsed_setDirent_of_ne (hi : i ≠ slot) (hname : name.length ≤ 32) :
    direntUsed (setDirent dir slot ino name name.length) i = direntUsed dir i :=
  word_congr fun _ hj => setDirent_byte_of_ne hi (by omega) hname

theorem direntIno_setDirent_of_ne (hi : i ≠ slot) (hname : name.length ≤ 32) :
    direntIno (setDirent dir slot ino name name.length) i = direntIno dir i :=
  word_congr fun _ hj => by
    simp only [Nat.add_assoc]
    exact setDirent_byte_of_ne hi (by omega) hname

theorem direntName_setDirent_of_ne {j : ℕ} (hi : i ≠ slot) (hj : j < maxName)
    (hname : name.length ≤ 32) :
    direntName (setDirent dir slot ino name name.length) i j = direntName dir i j := by
  simp only [maxName] at hj
  simp only [direntName, Nat.add_assoc]
  exact setDirent_byte_of_ne hi (by omega) hname

theorem direntUsed_setDirent (hslot : slot < direntCount) :
    direntUsed (setDirent dir slot ino name name.length) slot = 1 := by
  simp only [direntCount] at hslot
  simp (disch := omega) only [direntUsed, setDirent, u32, setU32, maxName,
    word_splice_of_disjoint, word_splice_wordBytes]
  rfl

theorem direntIno_setDirent (hslot : slot < direntCount) :
    direntIno (setDirent dir slot ino name name.length) slot = ino % 2 ^ 32 := by
  simp only [direntCount] at hslot
  simp (disch := omega) only [direntIno, setDirent, u32, setU32, maxName,
    word_splice_of_disjoint, word_splice_wordBytes]
  rfl

/-- The stored name is the given one, padded with NULs. -/
theorem direntName_setDirent {j : ℕ} (hslot : slot < direntCount) (hj : j < maxName) :
    direntName (setDirent dir slot ino name name.length) slot j = name.char j := by
  simp only [direntCount, maxName] at hslot hj
  have hbound : 40 * slot + 8 + j < 512 := by omega
  simp only [direntName, setDirent]
  rw [byte_splice _ _ hbound]
  split
  case isTrue h => rw [Nat.add_sub_cancel_left]
  case isFalse h =>
      rw [byte_splice_of_inside _ _ hbound (by simp only [maxName]; omega),
        name.char_of_le (by omega)]

end SetDirent

/-! ## Comparing names -/

private theorem streqFrom_congr {a a' b : ℕ → UInt8} {remaining i : ℕ}
    (h : ∀ j < i + remaining, a j = a' j) :
    streqFrom a b remaining i = streqFrom a' b remaining i := by
  induction remaining generalizing i with
  | zero => rfl
  | succ remaining ih =>
      have hhere : a i = a' i := h i (by omega)
      have hrest := ih (i := i + 1) fun j hj => h j (by omega)
      simp only [streqFrom, hhere, hrest]

theorem streq_congr {a a' b : ℕ → UInt8} (h : ∀ j < maxName, a j = a' j) : streq a b = streq a' b :=
  streqFrom_congr (by simpa using h)

private theorem streqFrom_char {s t : CStr} {remaining i : ℕ} (hend : s.length < i + remaining)
    (hsame : ∀ j < i, s.char j = t.char j ∧ s.char j ≠ 0) :
    streqFrom s.char t.char remaining i = true ↔ s = t := by
  induction remaining generalizing i with
  | zero =>
      -- all characters before the bound agree and none is the terminator: too many of them
      exact absurd (s.char_of_le (Nat.le_refl s.length)) (hsame s.length (by omega)).2
  | succ remaining ih =>
      unfold streqFrom
      by_cases hchar : s.char i = t.char i
      · rw [if_neg (not_not.mpr hchar)]
        by_cases hzero : s.char i = 0
        · rw [if_pos hzero]
          have hlen : s.length = i := by
            have hle := s.char_eq_zero_iff.mp hzero
            have hge : i ≤ s.length := by
              by_contra hlt
              exact (hsame s.length (by omega)).2 (s.char_of_le (Nat.le_refl _))
            omega
          have hlen' : t.length = i := by
            have hle := t.char_eq_zero_iff.mp (hchar ▸ hzero)
            have hge : i ≤ t.length := by
              by_contra hlt
              have := hsame t.length (by omega)
              exact this.2 (this.1.trans (t.char_of_le (Nat.le_refl _)))
            omega
          simp only [true_iff]
          exact CStr.ext_char (hlen.trans hlen'.symm) fun j hj => (hsame j (by omega)).1
        · rw [if_neg hzero]
          apply ih (by omega)
          intro j hj
          rcases Nat.lt_succ_iff_lt_or_eq.mp hj with hj | rfl
          · exact hsame j hj
          · exact ⟨hchar, hzero⟩
      · rw [if_pos hchar]
        simp only [Bool.false_eq_true, false_iff]
        rintro rfl
        exact hchar rfl

/-- A name that fits its field is equal to another string exactly when `m16_streq` says so. -/
theorem streq_char {s t : CStr} (hs : s.length < maxName) : streq s.char t.char = true ↔ s = t :=
  streqFrom_char (by simpa using hs) fun j hj => absurd hj (Nat.not_lt_zero j)

/-! ## What the searches find -/

theorem findFreeInode_ok {ib : Block} {ino : ℕ} (h : findFreeInode ib = .ok ino) :
    1 ≤ ino ∧ ino < maxInodes ∧ bitmapGet ib ino = false := by
  unfold findFreeInode at h
  split at h
  case h_1 i hfind =>
      cases h
      have hmem := List.mem_range'_1.mp (List.mem_of_find?_eq_some hfind)
      have hclear := List.find?_some hfind
      simp only [maxInodes, Bool.not_eq_true'] at hmem hclear ⊢
      exact ⟨hmem.1, by omega, hclear⟩
  case h_2 => cases h

theorem findFreeBlock_ok {bb : Block} {blk : ℕ} (h : findFreeBlock bb = .ok blk) :
    dataStartLba ≤ blk ∧ blk < maxBlocks ∧ bitmapGet bb blk = false := by
  unfold findFreeBlock at h
  split at h
  case h_1 i hfind =>
      cases h
      have hmem := List.mem_range'_1.mp (List.mem_of_find?_eq_some hfind)
      have hclear := List.find?_some hfind
      simp only [dataStartLba, maxBlocks, Bool.not_eq_true'] at hmem hclear ⊢
      exact ⟨hmem.1, by omega, hclear⟩
  case h_2 => cases h

theorem findFreeDirent_ok {dir : Block} {slot : ℕ} (h : findFreeDirent dir = .ok slot) :
    slot < direntCount ∧ direntUsed dir slot = 0 := by
  unfold findFreeDirent at h
  split at h
  case h_1 i hfind =>
      cases h
      have hmem := List.mem_range.mp (List.mem_of_find?_eq_some hfind)
      have hclear := List.find?_some hfind
      exact ⟨hmem, beq_iff_eq.mp hclear⟩
  case h_2 => cases h

/-! ## The two steps of a file creation -/

/-- The state after the first transaction: inode and block are taken, and the inode describes a
file of `size` bytes. -/
def FsState.reserve (s : FsState) (ino blk size : ℕ) : FsState :=
  { s with
    ib := bitmapSet s.ib ino
    bb := bitmapSet s.bb blk
    inodes := setInode s.inodes ino 1 1 size blk }

/-- The block that holds the bytes `data`. -/
def dataBlockOf (data : List UInt8) : Block :=
  Bytes.zero.splice 0 data.length fun i => data.getD i 0

/-- The state after the second transaction: the entry refers to the inode, and the data is
there. -/
def FsState.link (s : FsState) (slot ino blk : ℕ) (name : CStr) (data : List UInt8) : FsState :=
  { s with
    dir := setDirent s.dir slot ino name name.length
    data := Function.update s.data (blk - dataStartLba) (dataBlockOf data) }

variable {s : FsState} {ino blk slot size : ℕ} {name other : CStr} {data : List UInt8}

@[simp] theorem reserve_dir : (s.reserve ino blk size).dir = s.dir := rfl

@[simp] theorem reserve_ib : (s.reserve ino blk size).ib = bitmapSet s.ib ino := rfl

@[simp] theorem reserve_bb : (s.reserve ino blk size).bb = bitmapSet s.bb blk := rfl

@[simp] theorem reserve_data : (s.reserve ino blk size).data = s.data := rfl

@[simp] theorem reserve_inodes :
    (s.reserve ino blk size).inodes = setInode s.inodes ino 1 1 size blk := rfl

@[simp] theorem link_dir :
    (s.link slot ino blk name data).dir = setDirent s.dir slot ino name name.length := rfl

@[simp] theorem link_inodes : (s.link slot ino blk name data).inodes = s.inodes := rfl

@[simp] theorem link_data : (s.link slot ino blk name data).data =
    Function.update s.data (blk - dataStartLba) (dataBlockOf data) := rfl

theorem bitmapGet_bitmapSet (bm : Block) {bit : ℕ} (j : ℕ) (hbit : bit < 4096) :
    bitmapGet (bitmapSet bm bit) j = (decide (bit = j) || bitmapGet bm j) :=
  testBit_setBit bm j (by omega)

/-- What a creation takes was free before. -/
structure Free (s : FsState) (ino blk : ℕ) : Prop where
  ino_pos : 1 ≤ ino
  ino_lt : ino < maxInodes
  ino_clear : bitmapGet s.ib ino = false
  blk_low : dataStartLba ≤ blk
  blk_high : blk < maxBlocks
  blk_clear : bitmapGet s.bb blk = false

theorem Free.ino_small (h : Free s ino blk) : ino < 4096 := h.ino_lt.trans (by decide)

theorem Free.blk_small (h : Free s ino blk) : blk < 4096 := h.blk_high.trans (by decide)

/-- A file that was there before has another inode and another block. -/
theorem Free.ne (h : Free s ino blk) {j : ℕ} (hj : InodeOk s j) :
    j ≠ ino ∧ inodeDirect0 s.inodes j ≠ blk := by
  constructor
  · rintro rfl
    exact absurd hj.marked (by simp [h.ino_clear])
  · rintro rfl
    exact absurd hj.data_marked (by simp [h.blk_clear])

theorem InodeOk.reserve {j : ℕ} (hj : InodeOk s j) (hfree : Free s ino blk) :
    InodeOk (s.reserve ino blk size) j := by
  obtain ⟨hne, _⟩ := hfree.ne hj
  constructor
  · exact hj.ino_lt
  · exact (bitmapGet_bitmapSet s.ib j hfree.ino_small).trans (by rw [hj.marked, Bool.or_true])
  · exact (inodeUsed_setInode_of_ne hne).trans_ne hj.used
  · exact (inodeKind_setInode_of_ne hne).trans hj.kind
  · exact (inodeSize_setInode_of_ne hne).trans_le hj.size
  · exact hj.data_low.trans_eq (inodeDirect0_setInode_of_ne hne).symm
  · exact (inodeDirect0_setInode_of_ne hne).trans_lt hj.data_high
  · change bitmapGet (bitmapSet s.bb blk) (inodeDirect0 (setInode _ _ _ _ _ _) j) = true
    rw [inodeDirect0_setInode_of_ne hne, bitmapGet_bitmapSet s.bb _ hfree.blk_small,
      hj.data_marked, Bool.or_true]

/-- The new inode is a file. -/
theorem inodeOk_reserve (hfree : Free s ino blk) (hsize : size ≤ blockSize) :
    InodeOk (s.reserve ino blk size) ino := by
  have hdirect : inodeDirect0 (s.reserve ino blk size).inodes ino = blk :=
    (inodeDirect0_setInode hfree.ino_lt).trans
      (Nat.mod_eq_of_lt (hfree.blk_small.trans (by decide)))
  have hsize' : inodeSize (s.reserve ino blk size).inodes ino = size :=
    (inodeSize_setInode hfree.ino_lt).trans
      (Nat.mod_eq_of_lt (Nat.lt_of_le_of_lt hsize (by decide)))
  constructor
  · exact hfree.ino_lt
  · exact (bitmapGet_bitmapSet s.ib ino hfree.ino_small).trans (by simp)
  · exact (inodeUsed_setInode hfree.ino_lt).trans_ne (by decide)
  · exact inodeKind_setInode hfree.ino_lt
  · exact hsize'.trans_le hsize
  · exact hdirect.symm ▸ hfree.blk_low
  · exact hdirect.symm ▸ hfree.blk_high
  · rw [hdirect]
    exact (bitmapGet_bitmapSet s.bb blk hfree.blk_small).trans (by simp)

theorem FsOk.reserve (h : FsOk s) (hfree : Free s ino blk) : FsOk (s.reserve ino blk size) := by
  have hroot : (0 : ℕ) ≠ ino := Nat.ne_of_lt hfree.ino_pos
  constructor
  · exact h.super
  · exact (bitmapGet_bitmapSet s.ib 0 hfree.ino_small).trans (by rw [h.root_marked, Bool.or_true])
  · exact (inodeUsed_setInode_of_ne hroot).trans h.root_used
  · exact (inodeKind_setInode_of_ne hroot).trans h.root_kind
  · exact (inodeDirect0_setInode_of_ne hroot).trans h.root_direct0
  · intro i hi
    exact (bitmapGet_bitmapSet s.bb i hfree.blk_small).trans
      (by rw [h.reserved i hi, Bool.or_true])
  · intro i hi hused
    exact (h.entries i hi hused).reserve hfree

theorem FsOk.link (h : FsOk s) (hslot : slot < direntCount) (hname : name.length < maxName)
    (hino : InodeOk s ino) : FsOk (s.link slot ino blk name data) := by
  have hname' : name.length ≤ 32 := hname.le
  refine ⟨h.super, h.root_marked, h.root_used, h.root_kind, h.root_direct0, h.reserved, ?_⟩
  intro i hi hused
  by_cases heq : i = slot
  · subst heq
    have : direntIno (s.link i ino blk name data).dir i = ino :=
      (direntIno_setDirent hslot).trans (Nat.mod_eq_of_lt (hino.ino_lt.trans (by decide)))
    rw [this]
    exact ⟨hino.ino_lt, hino.marked, hino.used, hino.kind, hino.size, hino.data_low,
      hino.data_high, hino.data_marked⟩
  · have hentry := h.entries i hi ((direntUsed_setDirent_of_ne heq hname').symm.trans_ne hused)
    have : direntIno (s.link slot ino blk name data).dir i = direntIno s.dir i :=
      direntIno_setDirent_of_ne heq hname'
    rw [this]
    exact ⟨hentry.ino_lt, hentry.marked, hentry.used, hentry.kind, hentry.size, hentry.data_low,
      hentry.data_high, hentry.data_marked⟩

/-! ## Lookups before and after -/

/-- A lookup that finds a good inode depends on the directory, that inode and its block only. -/
theorem lookup_congr {s' : FsState} (hdir : findDirent s'.dir other = findDirent s.dir other)
    (hentry : ∀ i < direntCount, direntUsed s.dir i ≠ 0 → findDirent s.dir other = .ok i →
      direntIno s'.dir i = direntIno s.dir i ∧
      inodeSize s'.inodes (direntIno s.dir i) = inodeSize s.inodes (direntIno s.dir i) ∧
      inodeDirect0 s'.inodes (direntIno s.dir i) = inodeDirect0 s.inodes (direntIno s.dir i) ∧
      s'.data (inodeDirect0 s.inodes (direntIno s.dir i) - dataStartLba) =
        s.data (inodeDirect0 s.inodes (direntIno s.dir i) - dataStartLba))
    (behind : ℕ → UInt8) (outCap : ℕ) :
    lookup s' behind other outCap = lookup s behind other outCap := by
  unfold lookup
  rw [hdir]
  cases hfind : findDirent s.dir other with
  | error e => rfl
  | ok i =>
      obtain ⟨hi, hused, _⟩ := findDirent_ok hfind
      obtain ⟨hino, hsize, hdirect, hdata⟩ := hentry i hi hused hfind
      simp only [hino, hsize, hdirect, hdata]

/-- Reserving an inode and a block changes no lookup. -/
theorem lookup_reserve (h : FsOk s) (hfree : Free s ino blk) (behind : ℕ → UInt8) (outCap : ℕ) :
    lookup (s.reserve ino blk size) behind other outCap = lookup s behind other outCap := by
  apply lookup_congr (by rw [reserve_dir])
  intro i hi hused _
  obtain ⟨hne, _⟩ := hfree.ne (h.entries i hi hused)
  rw [reserve_dir, reserve_inodes, reserve_data, inodeSize_setInode_of_ne hne,
    inodeDirect0_setInode_of_ne hne]
  exact ⟨rfl, rfl, rfl, rfl⟩

/-- Linking a new name changes no lookup of another one. -/
theorem lookup_link (h : FsOk s) (hslot : slot < direntCount) (hunused : direntUsed s.dir slot = 0)
    (hname : name.length < maxName) (hother : other ≠ name)
    (hblk : ∀ i < direntCount, direntUsed s.dir i ≠ 0 →
      inodeDirect0 s.inodes (direntIno s.dir i) ≠ blk)
    (hlow : dataStartLba ≤ blk) (behind : ℕ → UInt8) (outCap : ℕ) :
    lookup (s.link slot ino blk name data) behind other outCap = lookup s behind other outCap := by
  have hname' : name.length ≤ 32 := hname.le
  apply lookup_congr
  · -- the new entry does not match `other`, and the slot matched nothing before
    rw [link_dir, findDirent, findDirent, List.find?_congr]
    intro i hi
    by_cases heq : i = slot
    · subst heq
      have hstored : streq (direntName (setDirent s.dir i ino name name.length) i) other.char =
          streq name.char other.char := streq_congr fun j hj => direntName_setDirent hslot hj
      have hdiffer : streq name.char other.char = false := by
        rw [Bool.eq_false_iff, ne_eq, streq_char hname]
        exact Ne.symm hother
      rw [hstored, hdiffer, hunused, Bool.and_false]
      simp
    · rw [direntUsed_setDirent_of_ne heq hname',
        streq_congr fun j hj => direntName_setDirent_of_ne heq hj hname']
  -- other entries, and the inodes and blocks behind them, are the old ones
  · intro i hi hused _
    have heq : i ≠ slot := by
      rintro rfl
      exact hused hunused
    have hentry := h.entries i hi hused
    have hdata : inodeDirect0 s.inodes (direntIno s.dir i) - dataStartLba ≠ blk - dataStartLba := by
      have := hblk i hi hused
      have := hentry.data_low
      omega
    rw [link_dir, link_inodes, link_data, direntIno_setDirent_of_ne heq hname',
      Function.update_of_ne hdata]
    exact ⟨rfl, rfl, rfl, rfl⟩

/-- The first `data.length` bytes of the block written for `data`. -/
theorem copyOut_dataBlockOf (behind : ℕ → UInt8) (hsize : data.length ≤ blockSize) :
    copyOut (dataBlockOf data) behind data.length = data := by
  apply List.ext_getElem
  · simp [copyOut]
  · intro i hi hi'
    simp only [blockSize] at hsize
    have hlt : i < 512 := by omega
    simp only [copyOut, List.getElem_map, List.getElem_range, blockSize, if_pos hlt]
    rw [dataBlockOf, byte_splice_of_inside _ _ hlt (by omega), Nat.sub_zero,
      List.getD_eq_getElem _ _ hi']

/-- The linked name finds the data. -/
theorem lookup_link_self (hnew : findDirent s.dir name = .error .noent)
    (hslot : slot < direntCount) (hname : name.length < maxName) (hino : ino < maxInodes)
    (hsize : inodeSize s.inodes ino = data.length) (hfits : data.length ≤ blockSize)
    (hdirect : inodeDirect0 s.inodes ino = blk) {outCap : ℕ} (hcap : data.length ≤ outCap)
    (behind : ℕ → UInt8) :
    lookup (s.link slot ino blk name data) behind name outCap = .ok data := by
  have hname' : name.length ≤ 32 := hname.le
  have hstored : streq (direntName (setDirent s.dir slot ino name name.length) slot) name.char =
      true := by
    rw [streq_congr fun j hj => direntName_setDirent hslot hj, streq_char hname]
  -- no other entry has the name, or it would have been found before
  have hmiss : ∀ i < direntCount, i ≠ slot → (direntUsed s.dir i != 0 &&
      streq (direntName s.dir i) name.char) = false := by
    intro i hi _
    unfold findDirent at hnew
    split at hnew
    case h_1 => cases hnew
    case h_2 hnone =>
        have := List.find?_eq_none.mp hnone i (List.mem_range.mpr hi)
        simpa using this
  have hfind : findDirent (s.link slot ino blk name data).dir name = .ok slot := by
    have : (List.range direntCount).find? (fun i =>
        direntUsed (setDirent s.dir slot ino name name.length) i != 0 &&
          streq (direntName (setDirent s.dir slot ino name name.length) i) name.char) =
        some slot := by
      rw [List.find?_range_eq_some]
      refine ⟨?_, List.mem_range.mpr hslot, fun i hi => ?_⟩
      · rw [direntUsed_setDirent hslot, hstored]
        rfl
      · have heq : i ≠ slot := Nat.ne_of_lt hi
        rw [direntUsed_setDirent_of_ne heq hname',
          streq_congr fun j hj => direntName_setDirent_of_ne heq hj hname',
          hmiss i (hi.trans hslot) heq]
        rfl
    rw [link_dir, findDirent, this]
  have hentry : direntIno (s.link slot ino blk name data).dir slot = ino :=
    (direntIno_setDirent hslot).trans (Nat.mod_eq_of_lt (hino.trans (by decide)))
  unfold lookup
  rw [hfind]
  simp only [hentry, link_inodes, link_data, hsize, hdirect, Function.update_self,
    if_neg (Nat.not_lt.mpr hcap), copyOut_dataBlockOf behind hfits]

end Mcsos.M16
