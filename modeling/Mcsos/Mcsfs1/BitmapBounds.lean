import Mcsos.Lib.After
import Mcsos.Mcsfs1.ReadDelivered
import Mcsos.Mcsfs1.Space

/-!
# Indices into the bitmaps

A bitmap is a block, of 4096 bits.  `mcsfs1_format` refuses larger devices, but `mcsfs1_mount`
compares the number of blocks in the superblock with the device only, and the loops over the block
bitmap run up to that number.

For each function, the predicates `…Passes` say that some execution of it passes the index `k` to
`bit_test`, `bit_set` or `bit_clear`; they follow the source step by step, where `After` stands for
the steps that were made before.  What happens behind an index that is too large is not the business
of this model: the first such index is what counts.

`bitmap_inside_iff` says just when all indices are below 4096.
-/

namespace Mcsos.Mcsfs1

open Bytes Function Prog

variable {dev : Blkdev} {mnt : Mount} {d d₀ d₁ : Disk} {x : Inode} {beyond : UInt8} {name : CStr}
  {n i j k r ino : ℕ} {bb : ℕ → Bool}

/-! ## The indices -/

/-- The indices that a loop tests which looks for a clear bit among `count` bits from `i` on. -/
def tested (bit : ℕ → Bool) : (count i : ℕ) → List ℕ
  | 0, _ => []
  | count + 1, i => i :: if bit i then tested bit count (i + 1) else []

/-- The indices that the loop over the data blocks tests. -/
def testedBlocks (dev : Blkdev) (bb : Block) : List ℕ :=
  tested (bitTest bb) (dev.blockCount - dataStartLba) dataStartLba

/-- `alloc_inode_block` passes `k`. -/
def allocInodeBlockPasses (dev : Blkdev) (k : ℕ) : Disk → Prop :=
  After (loadBmaps dev) fun bmaps _ =>
    k ∈ tested (bitTest bmaps.1) (maxInodes - 1) 2 ∨
      ∃ ino, freeIno (bitTest bmaps.1) = some ino ∧
        (k ∈ testedBlocks dev bmaps.2 ∨
          ∃ lba, freeBlock dev.blockCount (bitTest bmaps.2) = some lba ∧ (k = ino ∨ k = lba))

/-- `alloc_data_block` passes `k`. -/
def allocDataBlockPasses (dev : Blkdev) (k : ℕ) : Disk → Prop :=
  After (loadBmaps dev) fun bmaps _ =>
    k ∈ testedBlocks dev bmaps.2 ∨ freeBlock dev.blockCount (bitTest bmaps.2) = some k

/-- `free_inode_and_blocks` passes `k`. -/
def freeInodeAndBlocksPasses (dev : Blkdev) (ino : ℕ) (inode : Inode) (k : ℕ) : Disk → Prop :=
  After (loadBmaps dev) fun _ _ =>
    k = ino ∨ ∃ i < directBlocks, inode.direct i ≠ 0 ∧ inode.direct i < dev.blockCount ∧
      k = inode.direct i

/-- `mcsfs1_create` passes `k`, after it has found no entry of that name. -/
def createNewPasses (mnt : Mount) (k : ℕ) : Disk → Prop :=
  After (devRead mnt.dev rootDirLba) fun dirBlock d =>
    freeSlot dirBlock ≠ none ∧ allocInodeBlockPasses mnt.dev k d

/-- `mcsfs1_create` passes `k`. -/
def createPasses (beyond : UInt8) (mnt : Mount) (name : CStr) (k : ℕ) : Disk → Prop :=
  After (validName name) fun _ => After (findDirent beyond mnt.dev name).attempt fun found d =>
    (∃ e, found = .error e) ∧ createNewPasses mnt k d

/-- The loop of `mcsfs1_write` that allocates missing blocks passes `k`, from `direct[i]` on. -/
def allocDirectPasses (dev : Blkdev) (k : ℕ) : (remaining i : ℕ) → Inode → Disk → Prop
  | 0, _, _, _ => False
  | remaining + 1, i, inode, d =>
      if inode.direct i = 0 then
        allocDataBlockPasses dev k d ∨
          After (allocDataBlock dev)
            (fun b => allocDirectPasses dev k remaining (i + 1) (inode.setDirect i b)) d
      else allocDirectPasses dev k remaining (i + 1) inode d

/-- `mcsfs1_write` passes `k`. -/
def writePasses (beyond : UInt8) (mnt : Mount) (name : CStr) (data : List UInt8) (k : ℕ) :
    Disk → Prop :=
  After (failIf (directBlocks * blockSize < data.length) .range) fun _ =>
    After (findDirent beyond mnt.dev name) fun found =>
      After (readInode mnt.dev found.2) fun inode =>
        After (failIf (inode.mode ≠ modeFile) .isdir) fun _ =>
          allocDirectPasses mnt.dev k (blocksNeeded data.length) 0 inode

/-- `mcsfs1_unlink` passes `k`. -/
def unlinkPasses (beyond : UInt8) (mnt : Mount) (name : CStr) (k : ℕ) : Disk → Prop :=
  After (findDirent beyond mnt.dev name) fun found =>
    After (readInode mnt.dev found.2) fun inode =>
      After (devRead mnt.dev rootDirLba) fun dirBlock =>
        After (devWrite mnt.dev rootDirLba (setDirent dirBlock found.1 zero)) fun _ =>
          freeInodeAndBlocksPasses mnt.dev found.2 inode k

/-- A call passes `k` to a function of the bitmaps. -/
def Op.Passes (mnt : Mount) (o : Op) (k : ℕ) : Disk → Prop :=
  match o with
  | .create beyond name => createPasses beyond mnt name k
  | .write beyond name data => writePasses beyond mnt name data k
  | .unlink beyond name => unlinkPasses beyond mnt name k

/-- The device has no more blocks than the bitmap has bits, or `m` of the bits for data blocks are
clear. -/
def BitsFor (n : ℕ) (bb : ℕ → Bool) (m : ℕ) : Prop := n ≤ 4096 ∨ m ≤ (freeBlocks 4096 bb).card

/-- For allocating there are enough clear bits in the bitmap, and the blocks that are freed have
bits in it. -/
def Op.KeepsInside (n : ℕ) : Op → View → Prop
  | .create _ name, v =>
      ValidName name → v.ent.freeSlot ≠ none → freeIno v.ib ≠ none → BitsFor n v.bb 1
  | .write beyond name data, v =>
      data.length ≤ directBlocks * blockSize → ∀ s ino, v.search beyond name = .ok (s, ino) →
        ino ≤ maxInodes → (v.inode ino).mode = modeFile →
          BitsFor n v.bb (missing (v.inode ino) 0 (blocksNeeded data.length)).card
  | .unlink beyond name, v =>
      ∀ s ino, v.search beyond name = .ok (s, ino) → ino ≤ maxInodes →
        ∀ i < directBlocks, (v.inode ino).direct i < n → (v.inode ino).direct i < 4096

/-- The disks that calls lead to, with any callbacks failing. -/
inductive Later (mnt : Mount) (d : Disk) : Disk → Prop
  | here : Later mnt d d
  | call {d' d'' : Disk} {r : Except Err Unit} (o : Op) (hd : Later mnt d d')
      (h : Exec (o.prog mnt) d' r d'') : Later mnt d d''

/-! ## What the steps lead to -/

section Steps

variable {α : Type} {lba : ℕ}

theorem after_failIf {c : Prop} [Decidable c] {e : Err} {Q : Unit → Disk → Prop} :
    After (failIf c e) Q d ↔ ¬ c ∧ Q () d := by
  unfold failIf
  split_ifs with hc
  · exact iff_of_false not_after_fail fun h => h.1 hc
  · rw [after_ret]
    exact (and_iff_right hc).symm

theorem after_devRead {Q : Block → Disk → Prop} :
    After (devRead dev lba) Q d ↔ lba < dev.blockCount ∧ Q (d lba) d := by
  unfold devRead
  split_ifs with hlba
  · exact iff_of_false not_after_fail fun h => absurd h.1 (Nat.not_lt.mpr hlba)
  · rw [after_readBlock]
    exact (and_iff_right (Nat.lt_of_not_le hlba)).symm

theorem after_devWrite {data : Block} {Q : Unit → Disk → Prop} :
    After (devWrite dev lba data) Q d ↔ lba < dev.blockCount ∧ Q () (update d lba data) := by
  unfold devWrite
  split_ifs with hlba
  · exact iff_of_false not_after_fail fun h => absurd h.1 (Nat.not_lt.mpr hlba)
  · rw [after_writeBlock]
    exact (and_iff_right (Nat.lt_of_not_le hlba)).symm

theorem after_validName {Q : ℕ → Disk → Prop} :
    After (validName name) Q d ↔ ValidName name ∧ Q name.length d := by
  rw [validName_eq]
  split_ifs with hname
  · rw [after_ret]
    exact (and_iff_right hname).symm
  · exact iff_of_false not_after_fail fun h => hname h.1

variable (hn : dataStartLba < dev.blockCount)

include hn

theorem after_loadBmaps {Q : Block × Block → Disk → Prop} :
    After (loadBmaps dev) Q d ↔ Q (d inodeBmapLba, d blockBmapLba) d := by
  have hib : inodeBmapLba < dev.blockCount := (by decide : 1 < 8).trans hn
  have hbb : blockBmapLba < dev.blockCount := (by decide : 2 < 8).trans hn
  rw [loadBmaps, after_bind, after_devRead, and_iff_right hib, after_bind, after_devRead,
    and_iff_right hbb]
  exact after_ret

theorem after_storeBmaps {ib bb : Block} {Q : Unit → Disk → Prop} :
    After (storeBmaps dev ib bb) Q d ↔
      Q () (update (update d inodeBmapLba ib) blockBmapLba bb) := by
  have hib : inodeBmapLba < dev.blockCount := (by decide : 1 < 8).trans hn
  have hbb : blockBmapLba < dev.blockCount := (by decide : 2 < 8).trans hn
  rw [storeBmaps, after_bind, after_devWrite, and_iff_right hib, after_devWrite, and_iff_right hbb]

theorem after_readInode {Q : Inode → Disk → Prop} :
    After (readInode dev ino) Q d ↔ (1 ≤ ino ∧ ino ≤ maxInodes) ∧ Q ((view d).inode ino) d := by
  rw [readInode, after_bind, after_failIf, after_bind, after_failIf, after_bind, after_devRead]
  by_cases hino : 1 ≤ ino ∧ ino ≤ maxInodes
  · obtain ⟨hzero, hlba, hlt⟩ := inode_checks hino
    have hvalue : (view d).inode ino = (d (inodeLba ino)).slice (inodeOff ino) := if_pos hino
    rw [and_iff_right hzero, and_iff_right hlba, and_iff_right (hlt.trans hn),
      and_iff_right hino, hvalue]
    exact after_ret
  · exact iff_of_false (fun h => h.1 (by omega)) fun h => hino h.1

theorem after_findDirent {Q : ℕ × ℕ → Disk → Prop} :
    After (findDirent beyond dev name) Q d ↔
      ∃ s ino, (view d).search beyond name = .ok (s, ino) ∧ Q (s, ino) d := by
  have hdir : rootDirLba < dev.blockCount := (by decide : 7 < 8).trans hn
  rw [findDirent, after_bind, after_validName, after_bind, after_devRead, and_iff_right hdir,
    View.search]
  by_cases hname : ValidName name
  · rw [and_iff_right hname, if_pos hname, find_direntMatches d beyond hname.2]
    cases (view d).ent.find beyond name with
    | none =>
      refine iff_of_false not_after_fail ?_
      rintro ⟨s, ino, h, -⟩
      cases h
    | some s =>
      dsimp only
      rw [direntIno_eq]
      constructor
      · exact fun h => ⟨s, _, rfl, after_ret.mp h⟩
      · rintro ⟨t, ino, hfound, hQ⟩
        cases hfound
        exact after_ret.mpr hQ
  · rw [if_neg hname]
    refine iff_of_false (fun h => hname h.1) ?_
    rintro ⟨s, ino, h, -⟩
    cases h

theorem after_allocDataBlock {Q : ℕ → Disk → Prop} :
    After (allocDataBlock dev) Q d ↔
      ∃ b, freeBlock dev.blockCount (bitTest (d blockBmapLba)) = some b ∧
        Q b (update (update d inodeBmapLba (d inodeBmapLba)) blockBmapLba
          (bitSet (d blockBmapLba) b)) := by
  rw [allocDataBlock, after_bind, after_loadBmaps hn]
  dsimp only
  cases freeBlock dev.blockCount (bitTest (d blockBmapLba)) with
  | none =>
    refine iff_of_false not_after_fail ?_
    rintro ⟨b, h, -⟩
    cases h
  | some b =>
    dsimp only
    rw [after_bind, after_storeBmaps hn]
    constructor
    · exact fun h => ⟨b, rfl, after_ret.mp h⟩
    · rintro ⟨c, hfound, hQ⟩
      cases hfound
      exact after_ret.mpr hQ

/-- The search can fail on any disk, when its callback does. -/
theorem after_findDirent_failed (hname : ValidName name) {P : Disk → Prop} :
    After (findDirent beyond dev name).attempt (fun found d => (∃ e, found = .error e) ∧ P d) d ↔
      P d := by
  rw [after_attempt]
  constructor
  · rintro ⟨r, d', hexec, -, hP⟩
    rwa [(readOnly_findDirent beyond dev name).exec hexec] at hP
  · intro hP
    have hdir : rootDirLba < dev.blockCount := (by decide : 7 < 8).trans hn
    have hfail : Exec (fail Err.io : DiskM (ℕ × ℕ)) d (.error Err.io) d := Exec.fail Err.io d
    refine ⟨.error Err.io, d, ?_, ⟨Err.io, rfl⟩, hP⟩
    rw [findDirent, validName_eq, if_pos hname, devRead, if_neg (Nat.not_le.mpr hdir)]
    exact Exec.readError Err.io hfail

end Steps

/-! ## The loops -/

theorem mem_tested {bit : ℕ → Bool} {count : ℕ} :
    k ∈ tested bit count i ↔ (i ≤ k ∧ k < i + count) ∧ ∀ j, i ≤ j → j < k → bit j = true := by
  induction count generalizing i with
  | zero =>
    rw [tested]
    exact iff_of_false List.not_mem_nil fun h => by omega
  | succ count ih =>
    rw [tested, List.mem_cons]
    constructor
    · rintro (rfl | hk)
      · exact ⟨by omega, fun j hj hj' => absurd hj (Nat.not_le.mpr hj')⟩
      · split_ifs at hk with hbit
        · obtain ⟨hrange, hbefore⟩ := ih.mp hk
          refine ⟨by omega, fun j hj hj' => ?_⟩
          rcases Nat.eq_or_lt_of_le hj with rfl | hlt
          · exact hbit
          · exact hbefore j hlt hj'
        · cases hk
    · rintro ⟨hrange, hbefore⟩
      rcases Nat.eq_or_lt_of_le hrange.1 with rfl | hlt
      · exact Or.inl rfl
      · rw [if_pos (hbefore i (Nat.le_refl i) hlt)]
        exact Or.inr (ih.mpr ⟨by omega, fun j hj => hbefore j (by omega)⟩)

/-- All inode numbers are small. -/
theorem lt_of_mem_tested_inodes {ib : ℕ → Bool} (h : k ∈ tested ib (maxInodes - 1) 2) :
    k < 4096 := by
  have hrange := (mem_tested.mp h).1
  simp only [maxInodes] at hrange
  omega

/-- The block that is found was tested. -/
theorem freeBlock_mem_tested {bb : Block} (h : freeBlock dev.blockCount (bitTest bb) = some k) :
    k ∈ testedBlocks dev bb := by
  obtain ⟨⟨hlow, hhigh, -⟩, hbefore⟩ := freeBlock_eq_some_iff.mp h
  exact mem_tested.mpr ⟨⟨hlow, by omega⟩, hbefore⟩

/-- A clear bit keeps the loop inside. -/
theorem testedBlocks_inside_iff {bb : Block} (hn : dataStartLba < dev.blockCount) :
    (∀ k ∈ testedBlocks dev bb, k < 4096) ↔ BitsFor dev.blockCount (bitTest bb) 1 := by
  constructor
  · intro h
    by_contra hfew
    obtain ⟨hlarge, hnone⟩ := not_or.mp hfew
    have hset : ∀ j, dataStartLba ≤ j → j < 4096 → bitTest bb j = true := by
      intro j hj hj'
      by_contra hclear
      refine hnone (Finset.card_pos.mpr ⟨j, mem_freeBlocks.mpr ⟨⟨hj, hj'⟩, ?_⟩⟩)
      simpa using hclear
    have hmem : 4096 ∈ testedBlocks dev bb :=
      mem_tested.mpr ⟨by simp only [dataStartLba] at *; omega, hset⟩
    exact absurd (h 4096 hmem) (Nat.lt_irrefl _)
  · intro hfew k hk
    obtain ⟨hrange, hbefore⟩ := mem_tested.mp hk
    rcases hfew with hsmall | hsome
    · simp only [dataStartLba] at *
      omega
    · obtain ⟨b, hb⟩ := Finset.card_pos.mp hsome
      obtain ⟨⟨hlow, hhigh⟩, hclear⟩ := mem_freeBlocks.mp hb
      by_contra hlarge
      rw [hbefore b hlow (by omega)] at hclear
      cases hclear

/-- With a clear bit in the bitmap the block that is taken has a bit there. -/
theorem freeBlock_lt {b : ℕ} (hfree : freeBlock n bb = some b) (h : BitsFor n bb 1) : b < 4096 := by
  obtain ⟨⟨-, hhigh, -⟩, hbefore⟩ := freeBlock_eq_some_iff.mp hfree
  rcases h with hsmall | hsome
  · exact hhigh.trans_le hsmall
  · obtain ⟨c, hc⟩ := Finset.card_pos.mp hsome
    obtain ⟨⟨hlow, hlt⟩, hclear⟩ := mem_freeBlocks.mp hc
    by_contra hlarge
    rw [hbefore c hlow (by omega)] at hclear
    cases hclear

/-- One more block is allocated inside the bitmap. -/
theorem bitsFor_succ_iff {b m : ℕ} (hfree : freeBlock n bb = some b) :
    BitsFor n bb (m + 1) ↔ BitsFor n bb 1 ∧ BitsFor n (update bb b true) m := by
  have hcard : BitsFor n bb 1 →
      (freeBlocks 4096 (update bb b true)).card + 1 = (freeBlocks 4096 bb).card := by
    intro hone
    obtain ⟨⟨hlow, -, hclear⟩, hbefore⟩ := freeBlock_eq_some_iff.mp hfree
    exact card_freeBlocks_update
      (freeBlock_eq_some_iff.mpr ⟨⟨hlow, freeBlock_lt hfree hone, hclear⟩, hbefore⟩)
  constructor
  · rintro (hsmall | hmany)
    · exact ⟨Or.inl hsmall, Or.inl hsmall⟩
    · have hone : BitsFor n bb 1 := Or.inr (Nat.le_trans (Nat.le_add_left 1 m) hmany)
      rw [← hcard hone] at hmany
      exact ⟨hone, Or.inr (Nat.le_of_succ_le_succ hmany)⟩
  · rintro ⟨hone, hsmall | hmany⟩
    · exact Or.inl hsmall
    · refine Or.inr ?_
      rw [← hcard hone]
      exact Nat.succ_le_succ hmany

/-- Without a free block none of the clear bits is for a block of the device. -/
theorem bitsFor_succ_of_none {m : ℕ} (hfree : freeBlock n bb = none) :
    BitsFor n bb (m + 1) ↔ n ≤ 4096 := by
  refine or_iff_left_of_imp fun hmany => ?_
  by_contra hlarge
  obtain ⟨c, hc⟩ := Finset.card_pos.mp (Nat.lt_of_lt_of_le (Nat.succ_pos m) hmany)
  obtain ⟨⟨hlow, hhigh⟩, hclear⟩ := mem_freeBlocks.mp hc
  rw [freeBlock_none hfree hlow (by omega)] at hclear
  cases hclear

theorem allocDataBlock_inside_iff (hn : dataStartLba < dev.blockCount) :
    (∀ k, allocDataBlockPasses dev k d → k < 4096) ↔ BitsFor dev.blockCount (view d).bb 1 := by
  have hbb : (view d).bb = bitTest (d blockBmapLba) := rfl
  rw [hbb, ← testedBlocks_inside_iff hn]
  unfold allocDataBlockPasses
  simp only [after_loadBmaps hn]
  exact ⟨fun h k hk => h k (Or.inl hk), fun h k hk => h k (hk.elim id freeBlock_mem_tested)⟩

/-- The loop needs a clear bit for every block that is missing. -/
theorem allocDirect_inside_iff (hn : dataStartLba < dev.blockCount) :
    (∀ k, allocDirectPasses dev k r i x d → k < 4096) ↔
      BitsFor dev.blockCount (view d).bb (missing x i r).card := by
  induction r generalizing i x d with
  | zero =>
    refine iff_of_true (fun k h => absurd h id) (Or.inr ?_)
    simp [missing]
  | succ r ih =>
    unfold allocDirectPasses
    by_cases hzero : x.direct i = 0
    · simp only [if_pos hzero, after_allocDataBlock hn]
      have hbb : (view d).bb = bitTest (d blockBmapLba) := rfl
      have hfirst := allocDataBlock_inside_iff (d := d) hn
      rw [hbb] at hfirst ⊢
      have hmissing : ∀ b, (missing x i (r + 1)).card =
          (missing (x.setDirect i b) (i + 1) r).card + 1 :=
        fun b => missing_succ_of_zero hzero fun j hj => direct_setDirect_of_ne x b hj
      cases hfree : freeBlock dev.blockCount (bitTest (d blockBmapLba)) with
      | none =>
        rw [hmissing 0, bitsFor_succ_of_none hfree, ← bitsFor_succ_of_none (m := 0) hfree, ← hfirst]
        refine ⟨fun h k hk => h k (Or.inl hk), fun h k hk => h k (hk.resolve_right ?_)⟩
        rintro ⟨b, hb, -⟩
        cases hb
      | some b =>
        generalize hafter : update (update d inodeBmapLba (d inodeBmapLba)) blockBmapLba
          (bitSet (d blockBmapLba) b) = d'
        have hbits : BitsFor dev.blockCount (bitTest (d blockBmapLba)) 1 →
            (view d').bb = update (bitTest (d blockBmapLba)) b true := by
          intro hone
          rw [← hafter, view_update_bb]
          exact bitTest_bitSet _ (freeBlock_lt hfree hone)
        rw [hmissing b, bitsFor_succ_iff hfree]
        constructor
        · intro h
          have hone := hfirst.mp fun k hk => h k (Or.inl hk)
          refine ⟨hone, ?_⟩
          rw [← hbits hone]
          exact ih.mp fun k hk => h k (Or.inr ⟨b, rfl, hafter ▸ hk⟩)
        · rintro ⟨hone, hrest⟩ k (hk | ⟨c, hc, hk⟩)
          · exact hfirst.mpr hone k hk
          · cases hc
            rw [hafter] at hk
            rw [← hbits hone] at hrest
            exact ih.mpr hrest k hk
    · simp only [if_neg hzero]
      rw [missing_succ_of_ne hzero]
      exact ih

/-! ## The calls -/

theorem create_inside_iff (hn : dataStartLba < mnt.dev.blockCount) :
    (∀ k, createPasses beyond mnt name k d → k < 4096) ↔
      Op.KeepsInside mnt.dev.blockCount (.create beyond name) (view d) := by
  have hdir : rootDirLba < mnt.dev.blockCount := (by decide : 7 < 8).trans hn
  have hib : (view d).ib = bitTest (d inodeBmapLba) := rfl
  have hbb : (view d).bb = bitTest (d blockBmapLba) := rfl
  unfold createPasses Op.KeepsInside
  by_cases hname : ValidName name
  case neg =>
    refine iff_of_true (fun k hk => ?_) fun h => absurd h hname
    rw [after_validName] at hk
    exact absurd hk.1 hname
  simp only [after_validName, after_findDirent_failed hn hname, createNewPasses, after_devRead,
    allocInodeBlockPasses, after_loadBmaps hn, freeSlot_eq, and_iff_right hname, and_iff_right hdir,
    hib, hbb]
  constructor
  · intro h _ hslot hino
    obtain ⟨ino, hino⟩ := Option.ne_none_iff_exists'.mp hino
    exact (testedBlocks_inside_iff hn).mp fun k hk => h k ⟨hslot, Or.inr ⟨ino, hino, Or.inl hk⟩⟩
  · rintro h k ⟨hslot, hk | ⟨ino, hino, hk⟩⟩
    · exact lt_of_mem_tested_inodes hk
    have hsome : freeIno (bitTest (d inodeBmapLba)) ≠ none := by
      rw [hino]
      exact Option.some_ne_none ino
    have hbits := (testedBlocks_inside_iff hn).mpr (h hname hslot hsome)
    rcases hk with hk | ⟨lba, hlba, rfl | rfl⟩
    · exact hbits k hk
    · exact (freeIno_some hino).2.1.trans_lt (by decide)
    · exact hbits k (freeBlock_mem_tested hlba)

theorem write_inside_iff (hn : dataStartLba < mnt.dev.blockCount) {data : List UInt8} :
    (∀ k, writePasses beyond mnt name data k d → k < 4096) ↔
      Op.KeepsInside mnt.dev.blockCount (.write beyond name data) (view d) := by
  unfold writePasses Op.KeepsInside
  simp only [after_failIf, after_findDirent hn, after_readInode hn]
  constructor
  · intro h hlen s ino hsearch hino hmode
    obtain ⟨-, -, hlive, hnumber⟩ := search_ok hsearch
    have hlow : 1 ≤ ino := Nat.one_le_iff_ne_zero.mpr (hnumber ▸ hlive.2)
    exact (allocDirect_inside_iff hn).mp fun k hk =>
      h k ⟨Nat.not_lt.mpr hlen, s, ino, hsearch, ⟨hlow, hino⟩, not_not.mpr hmode, hk⟩
  · rintro h k ⟨hlen, s, ino, hsearch, ⟨-, hino⟩, hmode, hk⟩
    exact (allocDirect_inside_iff hn).mpr
      (h (Nat.not_lt.mp hlen) s ino hsearch hino (not_not.mp hmode)) k hk

theorem unlink_inside_iff (hn : dataStartLba < mnt.dev.blockCount) :
    (∀ k, unlinkPasses beyond mnt name k d → k < 4096) ↔
      Op.KeepsInside mnt.dev.blockCount (.unlink beyond name) (view d) := by
  have hdir : rootDirLba < mnt.dev.blockCount := (by decide : 7 < 8).trans hn
  unfold unlinkPasses Op.KeepsInside
  simp only [after_findDirent hn, after_readInode hn, after_devRead, after_devWrite,
    freeInodeAndBlocksPasses, after_loadBmaps hn, and_iff_right hdir]
  constructor
  · intro h s ino hsearch hino i hi hblock
    obtain ⟨-, -, hlive, hnumber⟩ := search_ok hsearch
    have hlow : 1 ≤ ino := Nat.one_le_iff_ne_zero.mpr (hnumber ▸ hlive.2)
    by_cases hzero : ((view d).inode ino).direct i = 0
    · rw [hzero]
      decide
    · exact h _ ⟨s, ino, hsearch, ⟨hlow, hino⟩, Or.inr ⟨i, hi, hzero, hblock, rfl⟩⟩
  · rintro h k ⟨s, ino, hsearch, ⟨-, hino⟩, rfl | ⟨i, hi, -, hblock, rfl⟩⟩
    · exact hino.trans_lt (by decide)
    · exact h s ino hsearch hino i hi hblock

/-- A mount that ends well, also with callbacks that may fail. -/
theorem exec_mount_ok (h : Exec (mount dev) d₀ (.ok mnt) d₁) :
    mnt.dev = dev ∧ dataStartLba < dev.blockCount := by
  have hmount : After (mount dev) (fun m _ => m = mnt) d₀ := ⟨mnt, d₁, h, rfl⟩
  simp only [mount, loadSuper, after_bind, after_devRead, after_failIf] at hmount
  obtain ⟨-, -, hcount, -, hstart, hsmall, hmount⟩ := hmount
  have hroot := after_ret.mp hmount
  obtain ⟨root, d', -, hmnt⟩ := after_bind.mp hroot
  rw [after_bind, after_failIf] at hmnt
  have hdev : (⟨dev, (d₀ sbLba).u32 12, (d₀ sbLba).u32 44⟩ : Mount) = mnt := after_ret.mp hmnt.2
  refine ⟨by rw [← hdev], ?_⟩
  simp only [dataStartLba] at *
  omega

/-- **When indices stay inside the bitmaps.**  On a device that was mounted, with any number of
blocks and any image, and after any calls with any callbacks failing: all indices that the next call
passes to the functions of the bitmaps are below 4096 just when there are enough clear bits for the
blocks it allocates, and the blocks it frees have bits. -/
theorem bitmap_inside_iff (hmount : Exec (mount dev) d₀ (.ok mnt) d₁) :
    ∀ d, Later mnt d₁ d → ∀ o : Op,
      (∀ k, o.Passes mnt k d → k < 4096) ↔ o.KeepsInside dev.blockCount (view d) := by
  obtain ⟨rfl, hn⟩ := exec_mount_ok hmount
  intro d _ o
  cases o with
  | create beyond name => exact create_inside_iff hn
  | write beyond name data => exact write_inside_iff hn
  | unlink beyond name => exact unlink_inside_iff hn

/-! ## Devices of 4097 blocks -/

/-- The superblock of 4097 blocks, and a block bitmap with its first `n` bits set. -/
def markedDisk (n : ℕ) : Disk :=
  update (update (fun _ => zero) sbLba (formatSuper 4097)) blockBmapLba
    ((List.range n).foldl bitSet zero)

/-- An image for 4097 blocks, without files, whose blocks in front of block `n` are marked. -/
def markedImage (n : ℕ) : Disk :=
  update (markedDisk n) (inodeLba rootIno) ((markedDisk n (inodeLba rootIno)).splice
    (inodeOff rootIno) 60 (Inode.make modeDir blockSize rootDirLba).byte)

/-- All bits of the block bitmap are set. -/
def largeDisk : Disk := markedImage 4096

/-- The last bit of the block bitmap is clear. -/
def roomyDisk : Disk := markedImage 4095

def largeMount : Mount := ⟨⟨4097⟩, 4097, dataStartLba⟩

theorem view_markedImage (n : ℕ) :
    view (markedImage n) = { view fun _ => zero with
      super := formatSuper 4097
      bb := bitTest ((List.range n).foldl bitSet zero)
      inode :=
        update (view fun _ => zero).inode rootIno (Inode.make modeDir blockSize rootDirLba) } := by
  rw [markedImage, view_update_inode (markedDisk n) _ (by decide), markedDisk, view_update_bb,
    view_update_super]

theorem bitTest_marked {n : ℕ} (hn : n ≤ 4096) (b : ℕ) :
    bitTest ((List.range n).foldl bitSet zero) b = decide (b < n) := by
  have hsmall : ∀ i ∈ List.range n, i / 8 < 512 := by
    intro i hi
    have hlt := List.mem_range.mp hi
    omega
  have hloop : bitTest ((List.range n).foldl bitSet zero) b =
      (decide (b ∈ List.range n) || false) :=
    (testBit_foldl_setBit zero b hsmall).trans (by rw [testBit_zero])
  rw [hloop, Bool.or_false]
  exact decide_eq_decide.mpr List.mem_range

theorem bb_markedImage {n : ℕ} (hn : n ≤ 4096) :
    bitTest (markedImage n blockBmapLba) = fun b => decide (b < n) := by
  have hview : (view (markedImage n)).bb = bitTest ((List.range n).foldl bitSet zero) := by
    rw [view_markedImage]
  exact hview.trans (funext (bitTest_marked hn))

theorem not_live_zero (s : ℕ) : ¬ (view fun _ => zero).ent.Live s := by
  rintro ⟨-, hino⟩
  have hent : (view fun _ => zero).ent s = zero := slice_zero (32 * s)
  rw [hent] at hino
  exact hino (u32_zero 0)

theorem checked_markedImage {n : ℕ} (hlow : dataStartLba ≤ n) (hn : n ≤ 4096) :
    Checked 4097 (view (markedImage n)) := by
  rw [view_markedImage]
  refine ⟨by decide, superOk_formatSuper (by decide), ?_, ?_, ?_, ?_, ?_⟩
  · dsimp only
    rw [update_self]
    exact mode_make _ _ _
  · dsimp only
    rw [update_self, size_make]
    decide
  · dsimp only
    rw [update_self]
    exact direct_make_zero _ _ _
  · intro b hb
    dsimp only
    rw [bitTest_marked hn]
    exact decide_eq_true (hb.trans_le hlow)
  · exact fun s hs => absurd hs (not_live_zero s)

theorem mount_markedImage {n : ℕ} (hlow : dataStartLba ≤ n) (hn : n ≤ 4096) :
    Exec (mount ⟨4097⟩) (markedImage n) (.ok largeMount) (markedImage n) := by
  have hmeets : Meets (fun _ => True) _ (mount ⟨4097⟩) (markedImage n) := meets_mount trivial
  have hresult : (run (mount ⟨4097⟩) (markedImage n)).1 = .ok largeMount :=
    mount_of_checked (checked_markedImage hlow hn)
  exact exec_of_run (Prod.ext hresult (hmeets.2 _ hresult).1)

/-- The first creation of a file tests the blocks up to the first one that is not marked. -/
theorem create_tests_marked {n k : ℕ} (hn : n ≤ 4096) (hlow : dataStartLba ≤ k) (hk : k ≤ n) :
    (Op.create 0 fileName).Passes largeMount k (markedImage n) := by
  have hcount : dataStartLba < largeMount.dev.blockCount := by decide
  have hib : bitTest (markedImage n inodeBmapLba) = fun _ => false := by
    have hview : (view (markedImage n)).ib = (view fun _ => zero).ib := by rw [view_markedImage]
    exact hview.trans (funext testBit_zero)
  have hslot : (view (markedImage n)).ent.freeSlot = some 0 := by
    have hview : (view (markedImage n)).ent = (view fun _ => zero).ent := by rw [view_markedImage]
    rw [hview]
    exact freeSlot_eq_some (by decide) (not_live_zero 0) fun t ht => absurd ht (Nat.not_lt_zero t)
  unfold Op.Passes createPasses
  simp only [after_validName, after_findDirent_failed hcount (by decide : ValidName fileName),
    createNewPasses, after_devRead, allocInodeBlockPasses, after_loadBmaps hcount, freeSlot_eq,
    hslot, hib]
  refine ⟨by decide, by decide, Option.some_ne_none 0, Or.inr ⟨2, by decide, Or.inl ?_⟩⟩
  rw [testedBlocks, bb_markedImage hn]
  have hinside : k < dataStartLba + (4097 - dataStartLba) := by
    simp only [dataStartLba]
    omega
  exact mem_tested.mpr ⟨⟨hlow, hinside⟩, fun j _ hj => decide_eq_true (hj.trans_le hk)⟩

/-- With bit 4095 clear, the first creation of a file tests that bit and none behind it. -/
theorem bitmap_inside_roomy_disk :
    Exec (mount ⟨4097⟩) roomyDisk (.ok largeMount) roomyDisk ∧
      (Op.create 0 fileName).Passes largeMount 4095 roomyDisk ∧
      ∀ k, (Op.create 0 fileName).Passes largeMount k roomyDisk → k < 4096 := by
  have hmount : Exec (mount ⟨4097⟩) roomyDisk (.ok largeMount) roomyDisk :=
    mount_markedImage (by decide) (by decide)
  refine ⟨hmount, create_tests_marked (by decide) (by decide) le_rfl,
    (bitmap_inside_iff hmount _ Later.here (.create 0 fileName)).mpr ?_⟩
  intro _ _ _
  have hbb : (view roomyDisk).bb = fun b => decide (b < 4095) := bb_markedImage (by decide)
  have hfree : 4095 ∈ freeBlocks 4096 (view roomyDisk).bb :=
    mem_freeBlocks.mpr ⟨⟨by decide, by decide⟩, by rw [hbb]; decide⟩
  exact Or.inr (Finset.card_pos.mpr ⟨4095, hfree⟩)

/-- The image is mounted, and `mcsfs1_fsck` accepts it.  The first creation of a file tests bit
4096. -/
theorem bitmap_index_too_large :
    Exec (mount ⟨4097⟩) largeDisk (.ok largeMount) largeDisk ∧
      (run (fsck ⟨4097⟩) largeDisk).1 = .ok () ∧
      (Op.create 0 fileName).Passes largeMount 4096 largeDisk :=
  ⟨mount_markedImage (by decide) le_rfl,
    (fsck_ok_iff _ _).mpr (checked_markedImage (by decide) le_rfl),
    create_tests_marked le_rfl (by decide) le_rfl⟩

end Mcsos.Mcsfs1
