import Mcsos.Mcsfs1.Runs

/-!
# What a checked image is good for

`mcsfs1_fsck` looks at the superblock, the root inode, the marks of the reserved blocks and the
inode numbers in the directory, and at nothing else (`fsck_ok_iff`).  The inodes of the files are
not read, so an image can be accepted whose files cannot be read (`fsck_accepts_bad_inode`).

If the inodes of the entries are good as well (`FilesOk`), then reading does not run into trouble,
and writing a file leaves the metadata alone but for the inode of that file and for new marks in the
block bitmap (`checked_files_safe`).  The latter is an invariant `Kept` of all disks that a write
goes through.
-/

namespace Mcsos.Mcsfs1

open Bytes Function Prog

variable {α : Type} {dev : Blkdev} {d d' : Disk} {I : Disk → Prop} {A : α → Disk → Prop}

/-! ## Rules for the block operations -/

theorem meets_failIf_bind {c : Prop} [Decidable c] {e : Err} {f : Unit → DiskM α} (hI : I d)
    (h : ¬ c → Meets I A (f ()) d) : Meets I A (failIf c e >>= f) d := by
  unfold failIf
  split
  case isTrue => exact Meets.fail hI
  case isFalse hc => exact h hc

theorem meets_devRead_bind {lba : ℕ} {f : Block → DiskM α} (hI : I d)
    (h : lba < dev.blockCount → Meets I A (f (d lba)) d) : Meets I A (devRead dev lba >>= f) d := by
  unfold devRead
  split
  case isTrue => exact Meets.fail hI
  case isFalse hlba =>
    refine (Meets.readBlock (A := fun b d' => d' = d ∧ b = d lba) hI ⟨rfl, rfl⟩).bind ?_
    rintro _ d' - ⟨rfl, rfl⟩
    exact h (Nat.not_le.mp hlba)

theorem meets_devWrite {lba : ℕ} {data : Block} {A : Unit → Disk → Prop} (hI : I d)
    (hI' : I (update d lba data)) (hA : A () (update d lba data)) :
    Meets I A (devWrite dev lba data) d := by
  unfold devWrite
  split
  case isTrue => exact Meets.fail hI
  case isFalse => exact Meets.writeBlock hI hI' hA

theorem meets_readInode {ino : ℕ} (hI : I d) :
    Meets I (fun x d' => d' = d ∧ x = (view d).inode ino) (readInode dev ino) d := by
  refine meets_failIf_bind hI fun hino => meets_failIf_bind hI fun _ =>
    meets_devRead_bind hI fun _ => ?_
  refine Meets.ret hI ⟨rfl, (if_pos ?_).symm⟩
  omega

/-! ## The check -/

theorem meets_loadSuper (hI : I d) :
    Meets I (fun sb d' => d' = d ∧ sb = d sbLba ∧ dataStartLba < dev.blockCount ∧
      (sb.u32 48 = 1 → SuperOk dev.blockCount sb)) (loadSuper dev) d := by
  refine meets_devRead_bind hI fun _ => ?_
  refine meets_failIf_bind hI fun hkind => meets_failIf_bind hI fun hcount =>
    meets_failIf_bind hI fun htables => meets_failIf_bind hI fun hroot =>
    meets_failIf_bind hI fun hdata => ?_
  simp only [not_or, not_not] at hkind hcount htables hroot
  obtain ⟨hmagic, hversion, hsize⟩ := hkind
  obtain ⟨hinodes, hblocks, htable⟩ := htables
  obtain ⟨hino, hdir, hstart⟩ := hroot
  refine Meets.ret hI ⟨rfl, rfl, ?_, fun hclean => ?_⟩
  · rw [hcount.1, hstart] at hdata
    exact Nat.not_le.mp hdata
  · exact ⟨hmagic, hversion, hsize, hcount.1, hcount.2, hinodes, hblocks, htable, hino,
      hdir, hstart, hclean⟩

theorem meets_fsck :
    Meets (fun _ => True) (fun _ _ => Checked dev.blockCount (view d)) (fsck dev) d := by
  refine (meets_loadSuper trivial).bind ?_
  rintro sb d₁ - ⟨rfl, rfl, hn, hsuper⟩
  refine (meets_readInode trivial).bind ?_
  rintro root d₂ - ⟨rfl, rfl⟩
  refine meets_failIf_bind trivial fun hmode => meets_failIf_bind trivial fun hdirect =>
    meets_failIf_bind trivial fun hsize => meets_failIf_bind trivial fun _ =>
    meets_failIf_bind trivial fun hclean => ?_
  refine meets_devRead_bind trivial fun _ => meets_devRead_bind trivial fun _ =>
    meets_failIf_bind trivial fun hreserved => meets_devRead_bind trivial fun _ => ?_
  unfold failIf
  split
  case isTrue => exact Meets.fail trivial
  case isFalse hentries =>
    refine Meets.ret trivial ⟨hn, hsuper (not_not.mp hclean), not_not.mp hmode, Nat.not_lt.mp hsize,
      not_not.mp hdirect, fun b hb => ?_, fun s hs => ?_⟩
    · by_contra hclear
      refine hreserved (List.any_eq_true.mpr ⟨b, List.mem_range.mpr hb, ?_⟩)
      rw [Bool.not_eq_true', ← Bool.not_eq_true]
      exact hclear
    · have hgood :
          ¬ (maxInodes < (view d₂).ent.ino s ∨ (view d₂).ib ((view d₂).ent.ino s) = false) := by
        intro hbad
        refine hentries (List.any_eq_true.mpr ⟨s, List.mem_range.mpr hs.1, ?_⟩)
        simp only [direntIno_eq, Bool.and_eq_true, bne_iff_ne, Bool.or_eq_true, decide_eq_true_eq,
          Bool.not_eq_true']
        exact ⟨hs.2, hbad⟩
      obtain ⟨hhigh, hmarked⟩ := not_or.mp hgood
      exact ⟨Nat.not_lt.mp hhigh, eq_true_of_ne_false hmarked⟩

/-- What the check accepts. -/
theorem fsck_ok_iff (dev : Blkdev) (d : Disk) :
    (run (fsck dev) d).1 = .ok () ↔ Checked dev.blockCount (view d) := by
  constructor
  · exact fun h => meets_fsck.2 () h
  · intro h
    exact (does_fsck (J := fun _ => True) h trivial).1

/-! ## What a write keeps -/

/-- Of the metadata on `d`, a disk `d'` on the way of a write has at most more marks in the block
bitmap and other inodes with numbers in `P`. -/
structure Kept (d : Disk) (P : ℕ → Prop) (d' : Disk) : Prop where
  super : d' sbLba = d sbLba
  ib : d' inodeBmapLba = d inodeBmapLba
  dir : d' rootDirLba = d rootDirLba
  bb : ∀ b, bitTest (d blockBmapLba) b = true → bitTest (d' blockBmapLba) b = true
  inode : ∀ ino, ¬ P ino → (view d').inode ino = (view d).inode ino

variable {P : ℕ → Prop}

theorem Kept.refl (d : Disk) (P : ℕ → Prop) : Kept d P d :=
  ⟨rfl, rfl, rfl, fun _ h => h, fun _ _ => rfl⟩

theorem Kept.writeBb (h : Kept d P d') {bm : Block}
    (hbm : ∀ b, bitTest (d' blockBmapLba) b = true → bitTest bm b = true) :
    Kept d P (update d' blockBmapLba bm) := by
  refine ⟨?_, ?_, ?_, fun b hb => ?_, fun ino hino => ?_⟩
  · rw [update_of_ne (by decide), h.super]
  · rw [update_of_ne (by decide), h.ib]
  · rw [update_of_ne (by decide), h.dir]
  · rw [update_self]
    exact hbm b (h.bb b hb)
  · rw [view_inode_update _ _ (by decide), h.inode ino hino]

/-- A write into the inode table or behind the directory. -/
theorem Kept.write (h : Kept d P d') {lba : ℕ} {data : Block}
    (hne : ∀ x, x < 3 ∨ x = 7 → x ≠ lba)
    (hinode : ∀ ino, ¬ P ino → (view (update d' lba data)).inode ino = (view d').inode ino) :
    Kept d P (update d' lba data) := by
  refine ⟨?_, ?_, ?_, fun b hb => ?_, fun ino hino => ?_⟩
  · rw [update_of_ne (hne _ (by decide)), h.super]
  · rw [update_of_ne (hne _ (by decide)), h.ib]
  · rw [update_of_ne (hne _ (by decide)), h.dir]
  · rw [update_of_ne (hne _ (by decide))]
    exact h.bb b hb
  · rw [hinode ino hino, h.inode ino hino]

theorem Kept.writeData (h : Kept d P d') {lba : ℕ} (data : Block) (hlba : dataStartLba ≤ lba) :
    Kept d P (update d' lba data) := by
  simp only [dataStartLba] at hlba
  refine h.write (fun x hx heq => by omega) fun ino _ => ?_
  rw [view_inode_update _ _ (Or.inr (by simp only [rootDirLba]; omega))]

theorem Kept.writeInode (h : Kept d P d') {ino : ℕ} (x : Inode) (hino : 1 ≤ ino ∧ ino ≤ maxInodes)
    (hP : P ino) :
    Kept d P (update d' (inodeLba ino) ((d' (inodeLba ino)).splice (inodeOff ino) 60 x.byte)) := by
  have hbounds := inodeLba_bounds hino
  simp only [inodeTableLba, rootDirLba] at hbounds
  refine h.write (fun y hy heq => by omega) fun j hj => ?_
  have hother : j ≠ ino := by
    rintro rfl
    exact hj hP
  rw [view_update_inode d' x hino]
  dsimp only
  rw [update_of_ne hother]

/-- Setting a bit keeps the bits that are set. -/
theorem bitTest_bitSet_of_true {bm : Block} {i b : ℕ} (h : bitTest bm b = true) :
    bitTest (bitSet bm i) b = true := by
  by_cases hi : i / 8 < 512
  · unfold bitTest bitSet at *
    rw [testBit_setBit bm b hi, h, Bool.or_true]
  · have hsame : bitSet bm i = bm := by
      apply ext_byte
      intro j hj
      rw [bitSet, setBit, byte_splice_of_outside bm _ (by omega)]
    rwa [hsame]

/-! ## The steps of a write -/

theorem meets_allocDataBlock (h : Kept d P d') :
    Meets (Kept d P) (fun b _ => dataStartLba ≤ b ∧ b < dev.blockCount)
      (allocDataBlock dev) d' := by
  have hload : Meets (Kept d P) (fun x d₁ => d₁ = d' ∧ x = (d' inodeBmapLba, d' blockBmapLba))
      (loadBmaps dev) d' :=
    meets_devRead_bind h fun _ => meets_devRead_bind h fun _ => Meets.ret h ⟨rfl, rfl⟩
  refine hload.bind ?_
  rintro _ d₁ - ⟨rfl, rfl⟩
  dsimp only
  cases hfree : freeBlock dev.blockCount (bitTest (d₁ blockBmapLba)) with
  | none => exact Meets.fail h
  | some b =>
      have hb := freeBlock_some hfree
      -- the inode bitmap is written back as it was read
      have hback : Meets (Kept d P) (fun _ d₂ => d₂ = d₁)
          (devWrite dev inodeBmapLba (d₁ inodeBmapLba)) d₁ := by
        apply meets_devWrite h
        · rwa [update_eq_self]
        · exact update_eq_self _ _
      have hmark : Meets (Kept d P) (fun _ _ => True)
          (devWrite dev blockBmapLba (bitSet (d₁ blockBmapLba) b)) d₁ :=
        meets_devWrite h (h.writeBb fun _ hbit => bitTest_bitSet_of_true hbit) trivial
      refine Meets.bind (A := fun _ _ => True) (hback.bind ?_) fun _ d₂ h₂ _ => ?_
      · rintro _ d₂ - rfl
        exact hmark
      · exact Meets.ret h₂ ⟨hb.1, hb.2.1⟩

/-- The blocks of an inode are data blocks. -/
def Inode.InData (x : Inode) : Prop :=
  ∀ i < directBlocks, x.direct i ≠ 0 → dataStartLba ≤ x.direct i

theorem Inode.InData.setDirect {x : Inode} (hx : x.InData) {i b : ℕ} (hi : i < directBlocks)
    (hlow : dataStartLba ≤ b) (hhigh : b < 2 ^ 32) : (x.setDirect i b).InData := by
  intro j hj hne
  by_cases hji : j = i
  · subst hji
    rwa [direct_setDirect x b hi hhigh]
  · rw [direct_setDirect_of_ne x b hji] at hne ⊢
    exact hx j hj hne

theorem meets_allocDirect (hn : dev.blockCount ≤ 2 ^ 32) :
    ∀ {r i : ℕ} {x : Inode} {d' : Disk}, i + r ≤ directBlocks → x.InData → Kept d P d' →
      Meets (Kept d P) (fun y _ => y.InData ∧ (∀ j, x.direct j ≠ 0 → y.direct j ≠ 0) ∧
        ∀ j, i ≤ j → j < i + r → y.direct j ≠ 0) (allocDirect dev r i x) d' := by
  intro r
  induction r with
  | zero =>
      intro i x d' _ hx h
      exact Meets.ret h ⟨hx, fun _ hne => hne, fun j hj hj' => by omega⟩
  | succ r ih =>
      intro i x d' hi hx h
      have hlt : i < directBlocks := by omega
      unfold allocDirect
      by_cases hzero : x.direct i = 0
      · rw [if_pos hzero]
        refine (meets_allocDataBlock h).bind fun b d₁ h₁ hb => ?_
        have hself : (x.setDirect i b).direct i = b := direct_setDirect x b hlt (hb.2.trans_le hn)
        have hpos : (x.setDirect i b).direct i ≠ 0 := by
          rw [hself]
          have := hb.1
          simp only [dataStartLba] at this
          omega
        have hrest := ih (i := i + 1) (x := x.setDirect i b) (by omega)
          (hx.setDirect hlt hb.1 (hb.2.trans_le hn)) h₁
        refine ⟨hrest.1, fun y hy => ?_⟩
        obtain ⟨hdata, hold, hfilled⟩ := hrest.2 y hy
        refine ⟨hdata, fun j hj => hold j ?_, fun j hj hj' => ?_⟩
        · have hji : j ≠ i := by
            rintro rfl
            exact hj hzero
          rwa [direct_setDirect_of_ne x b hji]
        · rcases Nat.eq_or_lt_of_le hj with rfl | hlater
          · exact hold _ hpos
          · exact hfilled j hlater (by omega)
      · rw [if_neg hzero]
        have hrest := ih (i := i + 1) (by omega) hx h
        refine ⟨hrest.1, fun y hy => ?_⟩
        obtain ⟨hdata, hold, hfilled⟩ := hrest.2 y hy
        refine ⟨hdata, hold, fun j hj hj' => ?_⟩
        rcases Nat.eq_or_lt_of_le hj with rfl | hlater
        · exact hold _ hzero
        · exact hfilled j hlater (by omega)

theorem meets_writeData {x : Inode} (data : List UInt8) :
    ∀ {r i written : ℕ} {d' : Disk}, (∀ j, i ≤ j → j < i + r → dataStartLba ≤ x.direct j) →
      Kept d P d' → Meets (Kept d P) (fun _ _ => True) (writeData dev x data r i written) d' := by
  intro r
  induction r with
  | zero => exact fun _ h => Meets.ret h trivial
  | succ r ih =>
      intro i written d' hblocks h
      have hput := h.writeData
        (dataBlock data written (if blockSize < data.length - written then blockSize
          else data.length - written)) (hblocks i (Nat.le_refl i) (by omega))
      refine Meets.bind (meets_devWrite (A := fun _ _ => True) h hput trivial) fun _ d₁ h₁ _ => ?_
      exact ih (fun j hj hj' => hblocks j (by omega) (by omega)) h₁

theorem meets_writeInode {ino : ℕ} (x : Inode) (hP : P ino) (h : Kept d P d') :
    Meets (Kept d P) (fun _ _ => True) (writeInode dev ino x) d' := by
  refine meets_failIf_bind h fun hino => meets_failIf_bind h fun _ =>
    meets_devRead_bind h fun _ => ?_
  exact meets_devWrite h (h.writeInode x (by omega) hP) trivial

theorem meets_findDirent (beyond : UInt8) (name : CStr) (h : I d) :
    Meets I (fun x d' => d' = d ∧ (view d).ent.find beyond name = some x.1 ∧
      x.2 = (view d).ent.ino x.1) (findDirent beyond dev name) d := by
  unfold findDirent
  rw [validName_eq]
  split_ifs with hvalid
  case neg => exact Meets.fail h
  case pos =>
    have hname : name.length ≤ maxName := hvalid.2
    rw [ret_bind]
    refine meets_devRead_bind h fun _ => ?_
    rw [find_direntMatches d beyond hname]
    cases hfind : (view d).ent.find beyond name with
    | none => exact Meets.fail h
    | some s =>
        refine Meets.ret h ⟨rfl, rfl, ?_⟩
        dsimp only
        rw [direntIno_eq]

theorem blocksNeeded_bound {len : ℕ} (h : ¬ directBlocks * blockSize < len) :
    0 + blocksNeeded len ≤ directBlocks := by
  rw [Nat.zero_add]
  exact blocksNeeded_le (Nat.not_lt.mp h)

theorem meets_write (mnt : Mount) (beyond : UInt8) (name : CStr) (data : List UInt8)
    (hn : mnt.dev.blockCount ≤ 2 ^ 32)
    (hdata : ∀ s, (view d).ent.Live s → ((view d).inode ((view d).ent.ino s)).InData) :
    Meets (Kept d fun ino => ∃ s, (view d).ent.find beyond name = some s ∧ ino = (view d).ent.ino s)
      (fun _ _ => True) (write beyond mnt name data) d := by
  have hstart := Kept.refl d fun ino =>
    ∃ s, (view d).ent.find beyond name = some s ∧ ino = (view d).ent.ino s
  refine meets_failIf_bind hstart fun hlen => (meets_findDirent beyond name hstart).bind ?_
  rintro ⟨s, ino⟩ d₁ - ⟨rfl, hfind, hino⟩
  obtain rfl : ino = (view d₁).ent.ino s := hino
  dsimp only at hfind
  refine (meets_readInode hstart).bind ?_
  rintro _ d₂ - ⟨rfl, rfl⟩
  refine meets_failIf_bind hstart fun _ => ?_
  have hx := hdata s (Dir.find_some hfind).1
  refine (meets_allocDirect hn (blocksNeeded_bound hlen) hx hstart).bind ?_
  rintro y d₃ h₃ ⟨hy, -, hfilled⟩
  have hblocks : ∀ j, 0 ≤ j → j < 0 + blocksNeeded data.length → dataStartLba ≤ y.direct j := by
    intro j hj hj'
    exact hy j (hj'.trans_le (blocksNeeded_bound hlen)) (hfilled j hj hj')
  refine (meets_writeData data hblocks h₃).bind fun _ d₄ h₄ _ => ?_
  refine (meets_writeInode _ ⟨s, hfind, rfl⟩ h₄).bind fun _ d₅ h₅ _ => ?_
  exact Meets.flushStore h₅ trivial

/-! ## Checked images with good inodes -/

/-- The inodes of the entries are good: files whose size is covered by blocks, which are marked data
blocks that no other entry refers to. -/
structure FilesOk (n : ℕ) (v : View) : Prop where
  inode : ∀ s, v.ent.Live s → InodeOk n v.bb (v.inode (v.ent.ino s))
  unshared : ∀ s t i j b, Owns v.ent v.inode s i b → Owns v.ent v.inode t j b → s = t

theorem MetaOk.filesOk {n : ℕ} {v : View} (h : MetaOk n v) : FilesOk n v :=
  ⟨h.inode, fun s t i j b hs ht => (h.block_inj s t i j b hs ht).1⟩

theorem View.read_of_filesOk {n cap : ℕ} {v : View} (h : FilesOk n v) (beyond : UInt8) (name : CStr)
    (hcap : directBlocks * blockSize ≤ cap) :
    v.read beyond name cap ≠ .error .corrupt ∧ v.read beyond name cap ≠ .error .isdir := by
  unfold View.read
  cases hsearch : v.search beyond name with
  | error e =>
      unfold View.search at hsearch
      split at hsearch
      · split at hsearch
        · cases hsearch
        · cases hsearch
          simp
      · cases hsearch
        simp
  | ok x =>
      obtain ⟨s, ino⟩ := x
      obtain ⟨-, -, hs, rfl⟩ := search_ok hsearch
      dsimp only
      rw [if_neg (Nat.not_lt.mpr ((h.inode s hs).size.trans hcap))]
      simp

/-- **What a checked image is good for.**  On an image that `mcsfs1_fsck` accepts, the superblock,
the root inode, the marks of the reserved blocks and the inode numbers of the entries are good.  If
the inodes of the entries are good as well, `mcsfs1_read` with room for 4096 bytes returns neither
`MCSFS1_ERR_CORRUPT` nor `MCSFS1_ERR_ISDIR`, and `mcsfs1_write`, whether its callbacks fail or power
is lost, leaves the metadata alone but for new marks in the block bitmap and the inode of the
file. -/
theorem checked_files_safe (mnt : Mount) (d : Disk) (hfsck : (run (fsck mnt.dev) d).1 = .ok ()) :
    Checked mnt.dev.blockCount (view d) ∧
      (FilesOk mnt.dev.blockCount (view d) → ∀ (beyond : UInt8) (name : CStr),
        (∀ cap, directBlocks * blockSize ≤ cap →
          (run (read beyond mnt name cap) d).1 ≠ .error .corrupt ∧
            (run (read beyond mnt name cap) d).1 ≠ .error .isdir) ∧
        ∀ data d', ((∃ r, Exec (write beyond mnt name data) d r d') ∨
            Visits (write beyond mnt name data) d d') →
          Kept d (fun ino => ∃ s, (view d).ent.find beyond name = some s ∧ ino = (view d).ent.ino s)
            d') := by
  have h := (fsck_ok_iff mnt.dev d).mp hfsck
  refine ⟨h, fun hfiles beyond name => ⟨fun cap hcap => ?_, fun data d' hreached => ?_⟩⟩
  · have hino : ∀ s, (view d).ent.Live s → 1 ≤ (view d).ent.ino s ∧
        (view d).ent.ino s ≤ maxInodes :=
      fun s hs => ⟨Nat.one_le_iff_ne_zero.mpr hs.2, (h.ino s hs).1⟩
    have hread := does_read (J := fun _ => True) beyond name cap h.bounds hino hfiles.inode trivial
    rw [hread.1]
    exact View.read_of_filesOk hfiles beyond name hcap
  · have hn : mnt.dev.blockCount ≤ 2 ^ 32 := by
      rw [← h.super.blockCount]
      exact (word_lt _ 4 12).le
    have hwrite := meets_write mnt beyond name data hn fun s hs i hi hne =>
      ((hfiles.inode s hs).block i hi hne).1
    rcases hreached with ⟨r, hexec⟩ | hvisits
    · exact ((failsFast_write mnt beyond name data).exec hwrite.1 hexec).1
    · exact (failsFast_write mnt beyond name data).visits hwrite.1 hvisits

/-- A mounted device of 16 blocks. -/
def smallMount : Mount := ⟨⟨16⟩, 16, 8⟩

/-- The name of the file on it. -/
def fileName : CStr := ⟨[97], by decide⟩

/-- An image of `smallMount` with one empty file. -/
def oneFile : Disk := (Op.create 0 fileName).step smallMount (run (format ⟨16⟩) fun _ => zero).2

theorem view_oneFile : ∃ d, Formatted 16 (view d) ∧ MetaOk 16 ((view d).link 0 2 8 fileName) ∧
    view oneFile = (view d).link 0 2 8 fileName := by
  obtain ⟨d, hrun, hformatted⟩ := run_format ⟨16⟩ (by decide) (by decide) fun _ => zero
  have hm : MetaOk smallMount.dev.blockCount (view d) := hformatted.ok
  have hview : view oneFile = (view d).link 0 2 8 fileName := by
    rw [oneFile, hrun]
    exact view_first hformatted 0 (by decide)
  refine ⟨d, hformatted, ?_, hview⟩
  rw [← hview, oneFile, hrun]
  exact metaOk_step _ hm

/-- The file on `oneFile` can be read. -/
theorem checked_files_safe_one_file :
    (run (fsck ⟨16⟩) oneFile).1 = .ok () ∧
      (run (read 0 smallMount fileName 4096) oneFile).1 ≠ .error .isdir := by
  obtain ⟨d, -, hm, hview⟩ := view_oneFile
  rw [← hview] at hm
  have hfsck : (run (fsck ⟨16⟩) oneFile).1 = .ok () := (runs_fsck hm).1
  have hsafe := (checked_files_safe smallMount oneFile hfsck).2 hm.filesOk 0 fileName
  exact ⟨hfsck, (hsafe.1 4096 (by decide)).2⟩

/-- Overwriting any inode but the root inode goes unnoticed. -/
theorem Checked.setInode {n : ℕ} {v : View} (h : Checked n v) {ino : ℕ} (hino : ino ≠ rootIno)
    (x : Inode) :
    Checked n { v with inode := update v.inode ino x } := by
  have hroot : update v.inode ino x rootIno = v.inode rootIno := update_of_ne (Ne.symm hino) _ _
  refine ⟨h.bounds, h.super, ?_, ?_, ?_, h.reserved, h.ino⟩
  · dsimp only
    rw [hroot, h.root_mode]
  · dsimp only
    rw [hroot]
    exact h.root_size
  · dsimp only
    rw [hroot, h.root_direct]

/-- Reading a file whose inode is not one of a file. -/
theorem read_of_bad_mode {mnt : Mount} {s ino cap : ℕ} {beyond : UInt8} {name : CStr}
    (hn : dataStartLba < mnt.dev.blockCount) (hsearch : (view d).search beyond name = .ok (s, ino))
    (hino : 1 ≤ ino ∧ ino ≤ maxInodes) (hmode : ((view d).inode ino).mode ≠ modeFile) :
    (run (read beyond mnt name cap) d).1 = .error .isdir := by
  have hfind : Does view (fun _ => True) (findDirent beyond mnt.dev name) d _ _ :=
    does_findDirent beyond name hn trivial
  rw [hsearch] at hfind
  have hread : Does view (fun _ => True) (read beyond mnt name cap) d (.error .isdir) (view d) := by
    refine Does.bind hfind fun d₁ hd₁ => ?_
    refine Does.bind (does_readInode hino hn trivial) fun d₂ hd₂ => ?_
    rw [← hd₁, ← hd₂] at hmode ⊢
    exact Runs.failIf_error hmode trivial
  exact hread.1

/-- `oneFile` with another inode for its file. -/
def withInode (x : Inode) : Disk :=
  update oneFile (inodeLba 2) ((oneFile (inodeLba 2)).splice (inodeOff 2) 60 x.byte)

theorem view_withInode (x : Inode) :
    view (withInode x) = { view oneFile with inode := update (view oneFile).inode 2 x } :=
  view_update_inode oneFile x (by decide)

theorem inode_withInode (x : Inode) : (view (withInode x)).inode 2 = x := by
  rw [view_withInode]
  dsimp only
  rw [update_self]

/-- The check sees no difference. -/
theorem checked_withInode (x : Inode) : Checked 16 (view (withInode x)) := by
  obtain ⟨d, -, hm, hview⟩ := view_oneFile
  rw [view_withInode, hview]
  exact hm.checked.setInode (by decide) x

/-- The name still belongs to slot 0 and inode 2. -/
theorem search_withInode (x : Inode) : (view (withInode x)).search 0 fileName = .ok (0, 2) := by
  obtain ⟨d, hformatted, -, hview⟩ := view_oneFile
  have hent : (view (withInode x)).ent = update (view d).ent 0
      (dirent 2 fileName fileName.length) := by
    rw [view_withInode, hview]
    rfl
  have hslot : (view (withInode x)).ent.slotOf fileName = some 0 := by
    rw [hent]
    exact ((slotOf_first hformatted (by decide)).2 fileName).trans (if_pos rfl)
  have hnumber : (view (withInode x)).ent.ino 0 = 2 := by
    rw [hent, ino_update_self, dirent_ino fileName (by decide)]
  rw [View.search, if_pos (by decide), find_eq_slotOf 0 (by decide), hslot]
  dsimp only
  rw [hnumber]

/-- `oneFile` with the inode of its file overwritten with zeros. -/
def badInode : Disk := withInode zero

/-- The check accepts `badInode`, whose one entry refers to an inode that is not one of a file. -/
theorem fsck_accepts_bad_inode :
    (run (fsck ⟨16⟩) badInode).1 = .ok () ∧ ¬ FilesOk 16 (view badInode) ∧
      (run (read 0 smallMount fileName 4096) badInode).1 = .error .isdir := by
  rw [badInode]
  have hmode : ((view (withInode zero)).inode 2).mode ≠ modeFile := by
    have hzero : Inode.mode zero = 0 := word_zero 2 0
    rw [inode_withInode, hzero]
    decide
  have hsearch := search_withInode zero
  refine ⟨(fsck_ok_iff _ _).mpr (checked_withInode zero), fun hfiles => ?_, ?_⟩
  · obtain ⟨-, -, hlive, hnumber⟩ := search_ok hsearch
    have hfile := (hfiles.inode 0 hlive).mode
    rw [← hnumber] at hfile
    exact hmode hfile
  · exact read_of_bad_mode (by decide) hsearch (by decide) hmode

end Mcsos.Mcsfs1
