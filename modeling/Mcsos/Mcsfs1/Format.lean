import Mcsos.Mcsfs1.WriteFile

/-!
# Formatting, mounting and checking

A successful `mcsfs1_format` leaves good metadata, an empty directory and no marks but those of the
reserved inodes and blocks, whatever the device held before (`format_formatted`).  On good metadata
`mcsfs1_mount` and `mcsfs1_fsck` succeed (`runs_mount`, `runs_fsck`).
-/

namespace Mcsos.Mcsfs1

open Bytes Function Prog

/-! ## Formatting -/

/-- The tables right after formatting. -/
structure Formatted (n : ℕ) (v : View) : Prop where
  ok : MetaOk n v
  ent : ∀ s, v.ent s = zero
  ib : ∀ i, v.ib i = decide (i = 0 ∨ i = rootIno)
  bb : ∀ b, v.bb b = decide (b < dataStartLba)

theorem Formatted.not_live {n : ℕ} {v : View} (h : Formatted n v) (s : ℕ) : ¬ v.ent.Live s := by
  rintro ⟨_, hs⟩
  rw [h.ent s] at hs
  exact hs (u32_zero 0)

variable {dev : Blkdev} {d : Disk}

theorem run_devWrite {lba : ℕ} (h : lba < dev.blockCount) (data : Block) :
    run (devWrite dev lba data) d = (.ok (), update d lba data) := by
  rw [devWrite, if_neg (Nat.not_le.mpr h)]
  rfl

theorem run_clearBlocks :
    ∀ {remaining lba : ℕ} {d : Disk}, lba + remaining = dev.blockCount →
      ∃ d', run (clearBlocks dev remaining lba) d = (.ok (), d') ∧
        ∀ b, d' b = if lba ≤ b ∧ b < dev.blockCount then zero else d b := by
  intro remaining
  induction remaining with
  | zero =>
      intro lba d h
      exact ⟨d, rfl, fun b => (if_neg (by omega)).symm⟩
  | succ remaining ih =>
      intro lba d h
      obtain ⟨d', hrun, hd'⟩ := @ih (lba + 1) (update d lba zero) (by omega)
      refine ⟨d', (run_bind_ok (run_devWrite (by omega) zero)).trans hrun, fun b => ?_⟩
      rw [hd']
      by_cases hb : b = lba
      · subst hb
        rw [if_neg (by omega), if_pos (by omega), update_self]
      · rw [update_of_ne hb]
        congr 1
        rw [eq_iff_iff]
        omega

theorem view_update_super (d : Disk) (sb : Block) :
    view (update d sbLba sb) = { view d with super := sb } := by
  ext1
  · simp [view]
  · simp [view]
  · simp [view]
  · exact view_inode_update d sb (by decide)
  · simp [view]
  · exact view_data_update d sb (by decide)

theorem superOk_formatSuper {n : ℕ} (hn : n < 2 ^ 32) : SuperOk n (formatSuper n) := by
  have hmod : n % 256 ^ 4 = n := Nat.mod_eq_of_lt (by omega)
  constructor <;>
    simp (disch := omega) only [formatSuper, u32, setU32, word_splice_of_disjoint,
      word_splice_wordBytes, hmod] <;> rfl

theorem bitTest_formatBlocks (b : ℕ) :
    bitTest (bitSet ((List.range dataStartLba).foldl bitSet zero) rootDirLba) b =
      decide (b < dataStartLba) := by
  have hsmall : ∀ i ∈ List.range dataStartLba, i / 8 < 512 := by
    intro i hi
    have hlt := List.mem_range.mp hi
    simp only [dataStartLba] at hlt
    omega
  have hloop : bitTest ((List.range dataStartLba).foldl bitSet zero) b =
      (decide (b ∈ List.range dataStartLba) || false) :=
    (testBit_foldl_setBit zero b hsmall).trans (by rw [testBit_zero])
  rw [bitTest_bitSet _ (by decide)]
  by_cases hb : b = rootDirLba
  · subst hb
    rw [update_self]
    rfl
  · rw [update_of_ne hb, hloop, Bool.or_false]
    exact decide_eq_decide.mpr List.mem_range

theorem view_update_dir (d : Disk) (dir : Block) :
    view (update d rootDirLba dir) = { view d with ent := fun s => dir.slice (32 * s) } := by
  ext1
  · simp [view]
  · simp [view]
  · simp [view]
  · exact view_inode_update d dir (by decide)
  · simp [view]
  · exact view_data_update d dir (by decide)

/-- The tables that formatting writes; `inode` and `data` are what was there before. -/
def formatView (n : ℕ) (inode : ℕ → Inode) (data : ℕ → Block) : View where
  super := formatSuper n
  ib := bitTest (bitSet (bitSet zero 0) rootIno)
  bb := bitTest (bitSet ((List.range dataStartLba).foldl bitSet zero) rootDirLba)
  inode := update inode rootIno (Inode.make modeDir blockSize rootDirLba)
  ent := fun s => (zero : Block).slice (32 * s)
  data := data

theorem formatView_formatted {n : ℕ} (hlow : minBlocks ≤ n) (hhigh : n ≤ blockSize * 8)
    (inode : ℕ → Inode) (data : ℕ → Block) : Formatted n (formatView n inode data) := by
  have hent : ∀ s, (formatView n inode data).ent s = zero := fun s => slice_zero (32 * s)
  -- all clauses about live entries hold for want of one
  have hempty : ∀ s, ¬ (formatView n inode data).ent.Live s := by
    rintro s ⟨_, hs⟩
    rw [hent s] at hs
    exact hs (u32_zero 0)
  have hroot : (formatView n inode data).inode rootIno = Inode.make modeDir blockSize
      rootDirLba := by
    dsimp only [formatView]
    rw [update_self]
  have hbb : ∀ b, (formatView n inode data).bb b = decide (b < dataStartLba) := bitTest_formatBlocks
  simp only [minBlocks, blockSize] at hlow hhigh
  refine ⟨⟨⟨by simp only [dataStartLba]; omega, hhigh⟩, superOk_formatSuper (by omega),
    ?_, ?_, ?_, ?_, fun s hs => absurd hs (hempty s), fun s hs => absurd hs (hempty s),
    fun s _ hs => absurd hs (hempty s), fun s _ _ _ _ hs => absurd hs.live (hempty s)⟩,
    hent, ?_, hbb⟩
  · rw [hroot]
    exact mode_make _ _ _
  · rw [hroot]
    exact size_make _ _ _
  · rw [hroot]
    exact direct_make_zero _ _ _
  · intro b hb
    rw [hbb, decide_eq_true hb]
  · intro i
    have hzero : bitTest zero i = false := testBit_zero i
    change bitTest (bitSet (bitSet zero 0) rootIno) i = _
    rw [bitTest_bitSet _ (by decide), bitTest_bitSet _ (by decide)]
    by_cases h1 : i = rootIno
    · subst h1
      rw [update_self]
      rfl
    · rw [update_of_ne h1]
      by_cases h0 : i = 0
      · subst h0
        rw [update_self]
        rfl
      · rw [update_of_ne h0, hzero]
        simp [h0, h1]

theorem run_storeBmaps (h : 2 < dev.blockCount) (ib bb : Block) :
    run (storeBmaps dev ib bb) d =
      (.ok (), update (update d inodeBmapLba ib) blockBmapLba bb) := by
  rw [storeBmaps, run_bind_ok (run_devWrite (Nat.lt_of_succ_lt h) ib), run_devWrite h]

theorem run_writeInode {ino : ℕ} (hino : 1 ≤ ino ∧ ino ≤ maxInodes)
    (h : dataStartLba ≤ dev.blockCount) (x : Inode) :
    run (writeInode dev ino x) d =
      (.ok (), update d (inodeLba ino) ((d (inodeLba ino)).splice (inodeOff ino) 60 x.byte)) := by
  obtain ⟨hzero, hlba, hlt⟩ := inode_checks hino
  rw [writeInode, failIf, if_neg hzero, failIf, if_neg hlba, devRead,
    if_neg (Nat.not_le.mpr (hlt.trans_le h))]
  exact run_devWrite (hlt.trans_le h) _

/-- Formatting a device of 16 to 4096 blocks, whatever it held before. -/
theorem run_format (dev : Blkdev) (hlow : minBlocks ≤ dev.blockCount)
    (hhigh : dev.blockCount ≤ blockSize * 8)
    (d : Disk) :
    ∃ d', run (format dev) d = (.ok (), d') ∧ Formatted dev.blockCount (view d') := by
  have hlow' : 16 ≤ dev.blockCount := hlow
  obtain ⟨d₀, hclear, -⟩ := run_clearBlocks (d := d) (Nat.zero_add dev.blockCount)
  have hsize : ¬ (dev.blockCount < minBlocks ∨ blockSize * 8 < dev.blockCount) := by omega
  rw [format, failIf, if_neg hsize, ret_bind, run_bind_ok hclear,
    run_bind_ok (run_devWrite ((by decide : 0 < 16).trans_le hlow') _),
    run_bind_ok (run_storeBmaps (by omega) _ _),
    run_bind_ok (run_writeInode (by decide) ((by decide : 8 ≤ 16).trans hlow') _),
    run_bind_ok (run_devWrite ((by decide : 7 < 16).trans_le hlow') _)]
  refine ⟨_, rfl, ?_⟩
  rw [view_update_dir, view_update_inode _ _ (by decide), view_update_bb, view_update_ib,
    view_update_super]
  exact formatView_formatted hlow hhigh (view d₀).inode (view d₀).data

/-- Only devices of 16 to 4096 blocks can be formatted. -/
theorem size_of_format {r : Except Err Unit} {d' : Disk} (h : run (format dev) d = (r, d'))
    (hr : r = .ok ()) : minBlocks ≤ dev.blockCount ∧ dev.blockCount ≤ blockSize * 8 := by
  by_contra hsize
  have hfail : dev.blockCount < minBlocks ∨ blockSize * 8 < dev.blockCount := by omega
  rw [format, failIf, if_pos hfail] at h
  have := congrArg Prod.fst h
  rw [hr] at this
  cases this

theorem format_formatted {d' : Disk} (h : run (format dev) d = (.ok (), d')) :
    Formatted dev.blockCount (view d') := by
  obtain ⟨hlow, hhigh⟩ := size_of_format h rfl
  obtain ⟨d'', hrun, hformatted⟩ := run_format dev hlow hhigh d
  rw [h] at hrun
  cases hrun
  exact hformatted

/-! ## Mounting and checking -/

variable {J : View → Prop}

theorem does_loadSuper (hn : dataStartLba < dev.blockCount)
    (hsb : SuperOk dev.blockCount (view d).super)
    (hJ : J (view d)) : Does view J (loadSuper dev) d (.ok (view d).super) (view d) := by
  have hread : sbLba < dev.blockCount := Nat.zero_lt_of_lt hn
  have hvalue : (view d).super = d sbLba := rfl
  rw [hvalue] at hsb ⊢
  refine Runs.devRead_bind hread ?_
  generalize d sbLba = sb at hsb
  refine Runs.failIf_bind (by simp [hsb.magic, hsb.version, hsb.blockSize])
    (Runs.failIf_bind (by simp [hsb.blockCount, hsb.inodeCount])
    (Runs.failIf_bind (by simp [hsb.inodeBmap, hsb.blockBmap, hsb.inodeTable])
    (Runs.failIf_bind (by simp [hsb.rootIno, hsb.rootDir, hsb.dataStart])
    (Runs.failIf_bind (by rw [hsb.blockCount, hsb.dataStart]; omega) (Does.ret hJ)))))

theorem runs_mount (hm : MetaOk dev.blockCount (view d)) :
    Runs dev (mount dev) d (.ok ⟨dev, dev.blockCount, dataStartLba⟩) (view d) := by
  refine Does.bind (does_loadSuper hm.bounds.1 hm.super hm) fun d₁ hd₁ => ?_
  rw [← hd₁] at hm ⊢
  refine Does.bind (runs_readInode (by decide) hm) fun d₂ hd₂ => ?_
  rw [← hd₂] at hm ⊢
  refine Runs.failIf_bind (by simp [hm.root_mode, hm.root_direct]) ?_
  rw [hm.super.blockCount, hm.super.dataStart]
  exact Does.ret hm

/-- What `mcsfs1_fsck` looks at: the superblock, the root inode, the marks of the reserved blocks,
and that every entry has an inode number that is marked. -/
structure Checked (n : ℕ) (v : View) : Prop where
  bounds : dataStartLba < n
  super : SuperOk n v.super
  root_mode : (v.inode rootIno).mode = modeDir
  root_size : (v.inode rootIno).size ≤ directBlocks * blockSize
  root_direct : (v.inode rootIno).direct 0 = rootDirLba
  reserved : ∀ b < dataStartLba, v.bb b = true
  ino : ∀ s, v.ent.Live s → v.ent.ino s ≤ maxInodes ∧ v.ib (v.ent.ino s) = true

theorem MetaOk.checked {n : ℕ} {v : View} (h : MetaOk n v) : Checked n v where
  bounds := h.bounds.1
  super := h.super
  root_mode := h.root_mode
  root_size := by
    rw [h.root_size]
    decide
  root_direct := h.root_direct
  reserved := h.reserved
  ino := fun s hs => (h.ino s hs).2

theorem does_fsck (h : Checked dev.blockCount (view d)) (hJ : J (view d)) :
    Does view J (fsck dev) d (.ok ()) (view d) := by
  have hn := h.bounds
  simp only [dataStartLba] at hn
  refine Does.bind (does_loadSuper h.bounds h.super hJ) fun d₁ hd₁ => ?_
  rw [← hd₁] at h hJ ⊢
  refine Does.bind (does_readInode (by decide) h.bounds hJ) fun d₂ hd₂ => ?_
  rw [← hd₂] at h hJ ⊢
  refine Runs.failIf_bind (not_not.mpr h.root_mode) (Runs.failIf_bind (not_not.mpr h.root_direct)
    (Runs.failIf_bind (Nat.not_lt.mpr h.root_size)
    (Runs.failIf_bind (by rw [h.root_direct]; simp only [rootDirLba]; omega)
    (Runs.failIf_bind (not_not.mpr h.super.clean) ?_))))
  refine Runs.devRead_bind (by simp only [inodeBmapLba]; omega)
    (Runs.devRead_bind (by simp only [blockBmapLba]; omega) (Runs.failIf_bind ?_
    (Runs.devRead_bind (by simp only [rootDirLba]; omega) ?_)))
  · rw [List.any_eq_true]
    rintro ⟨b, hb, hclear⟩
    have hmarked : bitTest (d₂ blockBmapLba) b = true := h.reserved b (List.mem_range.mp hb)
    simp [hmarked] at hclear
  · rw [failIf, if_neg]
    · exact Does.ret hJ
    · rw [List.any_eq_true]
      rintro ⟨s, hs, hbad⟩
      simp only [direntIno_eq, Bool.and_eq_true, bne_iff_ne, Bool.or_eq_true, decide_eq_true_eq,
        Bool.not_eq_true'] at hbad
      obtain ⟨hhigh, hmarked⟩ := h.ino s ⟨List.mem_range.mp hs, hbad.1⟩
      have hmarked' : bitTest (d₂ inodeBmapLba) ((view d₂).ent.ino s) = true := hmarked
      rcases hbad.2 with hlt | hclear
      · omega
      · rw [hmarked'] at hclear
        cases hclear

theorem runs_fsck (hm : MetaOk dev.blockCount (view d)) :
    Runs dev (fsck dev) d (.ok ()) (view d) :=
  does_fsck hm.checked hm

end Mcsos.Mcsfs1
