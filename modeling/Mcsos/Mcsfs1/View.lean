import Mcsos.Mcsfs1.FileSystem

/-!
# What is on a disk

`view d` takes the content of a disk apart into the tables of the filesystem: the superblock, the
two bitmaps, the inodes, the directory entries and the data blocks.  Each kind of block write
changes one of these tables at one place and leaves everything else alone; these are the
`view_update_…` lemmas.  All later reasoning is about views.
-/

namespace Mcsos.Mcsfs1

open Bytes Function

/-- A directory entry. -/
abbrev Entry : Type := Bytes 32

/-- The directory entries `0, …, 15`. -/
abbrev Dir : Type := ℕ → Entry

/-- The tables of a filesystem. -/
@[ext]
structure View where
  super : Block
  ib : ℕ → Bool
  bb : ℕ → Bool
  /-- The inodes `1, …, 32`. -/
  inode : ℕ → Inode
  ent : Dir
  /-- The blocks from `dataStartLba` on. -/
  data : ℕ → Block

/-- The tables on the disk `d`. -/
def view (d : Disk) : View where
  super := d sbLba
  ib := bitTest (d inodeBmapLba)
  bb := bitTest (d blockBmapLba)
  inode := fun ino =>
    if 1 ≤ ino ∧ ino ≤ maxInodes then (d (inodeLba ino)).slice (inodeOff ino) else zero
  ent := fun s => (d rootDirLba).slice (32 * s)
  data := fun b => if dataStartLba ≤ b then d b else zero

theorem view_data (d : Disk) {b : ℕ} (hb : dataStartLba ≤ b) : (view d).data b = d b := if_pos hb

/-- `de[s].ino` -/
def Entry.ino (e : Entry) : ℕ := e.u32 0

/-- The name in `de[s].name`. -/
def Entry.name (e : Entry) : CStr := CStr.ofMem (fun j => e.byte (5 + j)) maxName

/-- Slot `s` holds an entry. -/
def Dir.Live (dir : Dir) (s : ℕ) : Prop := s < direntCount ∧ (dir s).ino ≠ 0

/-- The inode number in slot `s`. -/
def Dir.ino (dir : Dir) (s : ℕ) : ℕ := (dir s).ino

instance (dir : Dir) (s : ℕ) : Decidable (dir.Live s) := inferInstanceAs (Decidable (_ ∧ _))

/-! ## Bitmaps as sets -/

theorem bitTest_bitSet (bm : Block) {i : ℕ} (hi : i < 4096) :
    bitTest (bitSet bm i) = update (bitTest bm) i true := by
  funext j
  unfold bitTest bitSet
  rw [testBit_setBit bm j (by omega)]
  by_cases hj : j = i
  · subst hj
    simp
  · rw [update_of_ne hj, decide_eq_false (Ne.symm hj), Bool.false_or]

theorem bitTest_bitClear (bm : Block) {i : ℕ} (hi : i < 4096) :
    bitTest (bitClear bm i) = update (bitTest bm) i false := by
  funext j
  unfold bitTest bitClear
  rw [testBit_clearBit bm j (by omega)]
  by_cases hj : j = i
  · subst hj
    simp
  · rw [update_of_ne hj, decide_eq_true (Ne.symm hj), Bool.true_and]

/-! ## The effect of a block write -/

/-- Inode `ino` is in the inode table. -/
theorem inodeLba_bounds {ino : ℕ} (h : 1 ≤ ino ∧ ino ≤ maxInodes) :
    inodeTableLba ≤ inodeLba ino ∧ inodeLba ino < rootDirLba := by
  simp only [inodeLba, inodeTableLba, rootDirLba, maxInodes, perBlock] at *
  omega

/-- A write outside the inode table. -/
theorem view_inode_update (d : Disk) {lba : ℕ} (b : Block)
    (h : lba < inodeTableLba ∨ rootDirLba ≤ lba) :
    (view (update d lba b)).inode = (view d).inode := by
  funext ino
  simp only [view]
  split_ifs with hino
  · have := inodeLba_bounds hino
    rw [update_of_ne (by omega)]
  · rfl

/-- A write in front of the data blocks. -/
theorem view_data_update (d : Disk) {lba : ℕ} (b : Block) (h : lba < dataStartLba) :
    (view (update d lba b)).data = (view d).data := by
  funext x
  simp only [view]
  split_ifs with hx
  · rw [update_of_ne (by omega)]
  · rfl

theorem view_update_ib (d : Disk) (bm : Block) :
    view (update d inodeBmapLba bm) = { view d with ib := bitTest bm } := by
  ext1
  · simp [view]
  · simp [view]
  · simp [view]
  · exact view_inode_update d bm (by decide)
  · simp [view]
  · exact view_data_update d bm (by decide)

theorem view_update_bb (d : Disk) (bm : Block) :
    view (update d blockBmapLba bm) = { view d with bb := bitTest bm } := by
  ext1
  · simp [view]
  · simp [view]
  · simp [view]
  · exact view_inode_update d bm (by decide)
  · simp [view]
  · exact view_data_update d bm (by decide)

theorem view_update_data (d : Disk) {b : ℕ} (blk : Block) (hb : dataStartLba ≤ b) :
    view (update d b blk) = { view d with data := update (view d).data b blk } := by
  simp only [dataStartLba] at hb
  have hne : ∀ lba < 8, lba ≠ b := fun lba hlba heq => by omega
  ext1
  · simp [view, update_of_ne (hne 0 (by decide))]
  · simp [view, update_of_ne (hne 1 (by decide))]
  · simp [view, update_of_ne (hne 2 (by decide))]
  · exact view_inode_update d blk (Or.inr (by simp only [rootDirLba]; omega))
  · simp [view, update_of_ne (hne 7 (by decide))]
  · funext x
    by_cases hx : x = b
    · subst hx
      simp [view, hb]
    · simp [view, update_of_ne hx]

/-- Two slices of the directory block do not overlap. -/
theorem slice_setDirent (dir : Block) {s : ℕ} (e : Entry) (hs : s < direntCount) (t : ℕ) :
    ((setDirent dir s e).slice (32 * t) : Entry) = if t = s then e else dir.slice (32 * t) := by
  simp only [direntCount] at hs
  apply ext_byte
  intro i hi
  rw [byte_slice _ hi, setDirent]
  split_ifs with ht
  · subst ht
    rw [byte_splice_of_inside _ _ (by omega) (by omega), Nat.add_sub_cancel_left]
  · rw [byte_splice_of_outside _ _ (by omega), byte_slice _ hi]

theorem view_update_ent (d : Disk) {s : ℕ} (e : Entry) (hs : s < direntCount) :
    view (update d rootDirLba (setDirent (d rootDirLba) s e)) =
      { view d with ent := update (view d).ent s e } := by
  ext1
  · simp [view]
  · simp [view]
  · simp [view]
  · exact view_inode_update d _ (by decide)
  · funext t
    simp only [view, update_self, slice_setDirent _ e hs, update_apply]
  · exact view_data_update d _ (by decide)

/-- Two inodes are in different blocks or at different offsets. -/
theorem inode_disjoint {ino j : ℕ} (hino : 1 ≤ ino) (hj : 1 ≤ j) (hne : j ≠ ino)
    (hlba : inodeLba j = inodeLba ino) :
    inodeOff j + 60 ≤ inodeOff ino ∨ inodeOff ino + 60 ≤ inodeOff j := by
  simp only [inodeLba, inodeOff, inodeTableLba, perBlock] at *
  omega

theorem inodeOff_bound (ino : ℕ) : inodeOff ino + 60 ≤ 512 := by
  simp only [inodeOff, perBlock]
  omega

theorem view_update_inode (d : Disk) {ino : ℕ} (x : Inode) (hino : 1 ≤ ino ∧ ino ≤ maxInodes) :
    view (update d (inodeLba ino) ((d (inodeLba ino)).splice (inodeOff ino) 60 x.byte)) =
      { view d with inode := update (view d).inode ino x } := by
  have hbounds := inodeLba_bounds hino
  simp only [inodeTableLba, rootDirLba] at hbounds
  have hoff := inodeOff_bound ino
  have hne : ∀ lba, lba < 3 ∨ 7 ≤ lba → lba ≠ inodeLba ino := fun lba hlba heq => by omega
  ext1
  · simp [view, update_of_ne (hne 0 (by decide))]
  · simp [view, update_of_ne (hne 1 (by decide))]
  · simp [view, update_of_ne (hne 2 (by decide))]
  · funext j
    dsimp only
    by_cases hj : j = ino
    · subst hj
      rw [update_self]
      simp only [view, if_pos hino, update_self]
      apply ext_byte
      intro i hi
      rw [byte_slice _ hi, byte_splice_of_inside _ _ (by omega) (by omega), Nat.add_sub_cancel_left]
    · rw [update_of_ne hj]
      simp only [view]
      split_ifs with hrange
      · by_cases hlba : inodeLba j = inodeLba ino
        -- another inode of the same block: the two records do not overlap
        · have hdisjoint := inode_disjoint hino.1 hrange.1 hj hlba
          rw [hlba, update_self]
          apply ext_byte
          intro i hi
          rw [byte_slice _ hi, byte_slice _ hi, byte_splice_of_outside _ _ (by omega)]
        · rw [update_of_ne hlba]
      · rfl
  · simp [view, update_of_ne (hne 7 (by decide))]
  · exact view_data_update d _ (by simp only [dataStartLba]; omega)

/-! ## Fields of an inode -/

section Inode

variable (x : Inode) (n lba : ℕ)

@[simp] theorem mode_setSize : (x.setSize n).mode = x.mode := by
  simp (disch := omega) only [Inode.setSize, Inode.mode, u16, setU32, word_splice_of_disjoint]

@[simp] theorem direct_setSize (i : ℕ) : (x.setSize n).direct i = x.direct i := by
  simp (disch := omega) only [Inode.setSize, Inode.direct, u32, setU32, word_splice_of_disjoint]

theorem size_setSize (hn : n < 2 ^ 32) : (x.setSize n).size = n :=
  (u32_setU32 x n (by decide)).trans (Nat.mod_eq_of_lt hn)

@[simp] theorem mode_setDirect (i : ℕ) : (x.setDirect i lba).mode = x.mode := by
  simp (disch := omega) only [Inode.setDirect, Inode.mode, u16, setU32, word_splice_of_disjoint]

theorem direct_setDirect {i : ℕ} (hi : i < directBlocks) (hlba : lba < 2 ^ 32) :
    (x.setDirect i lba).direct i = lba := by
  simp only [directBlocks] at hi
  exact (u32_setU32 x lba (by omega)).trans (Nat.mod_eq_of_lt hlba)

theorem direct_setDirect_of_ne {i j : ℕ} (hne : j ≠ i) :
    (x.setDirect i lba).direct j = x.direct j := by
  simp (disch := omega) only [Inode.setDirect, Inode.direct, u32, setU32, word_splice_of_disjoint]

end Inode

theorem mode_make (mode size direct0 : ℕ) :
    (Inode.make mode size direct0).mode = mode % 2 ^ 16 := by
  simp (disch := omega) only [Inode.make, Inode.mode, u16, setU16, setU32,
    word_splice_of_disjoint, word_splice_wordBytes]
  rfl

theorem size_make (mode size direct0 : ℕ) :
    (Inode.make mode size direct0).size = size % 2 ^ 32 := by
  simp (disch := omega) only [Inode.make, Inode.size, u32, setU16, setU32,
    word_splice_of_disjoint, word_splice_wordBytes]
  rfl

theorem direct_make_zero (mode size direct0 : ℕ) :
    (Inode.make mode size direct0).direct 0 = direct0 % 2 ^ 32 := by
  simp (disch := omega) only [Inode.make, Inode.direct, u32, setU32, Nat.mul_zero, Nat.add_zero,
    word_splice_wordBytes]
  rfl

theorem direct_make_succ (mode size direct0 i : ℕ) :
    (Inode.make mode size direct0).direct (i + 1) = 0 := by
  simp (disch := omega) only [Inode.make, Inode.direct, u32, setU16, setU32,
    word_splice_of_disjoint]
  exact word_zero 4 _

end Mcsos.Mcsfs1
