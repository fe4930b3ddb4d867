import Mcsos.Mcsfs1.Search

/-!
# The helper functions on a healthy device

For each helper of the operations: what it returns, what it makes of the tables, and that the
metadata invariant holds after each of its writes.  `Runs dev p d r v` is that statement; a helper
that writes asks its caller for the invariant of the tables it is going to write.
-/

namespace Mcsos.Mcsfs1

open Bytes Function Prog

/-- On a healthy device `p` ends with the result `r` and the tables `v`, through good metadata. -/
abbrev Runs {α : Type} (dev : Blkdev) (p : DiskM α) (d : Disk) (r : Except Err α) (v : View) :
    Prop :=
  Does view (MetaOk dev.blockCount) p d r v

variable {α γ : Type} {dev : Blkdev} {d : Disk} {r : Except Err α} {v : View} {J : View → Prop}

theorem Runs.failIf_bind {c : Prop} [Decidable c] {e : Err} {f : Unit → DiskM α} (hc : ¬ c)
    (h : Does view J (f ()) d r v) : Does view J (failIf c e >>= f) d r v := by
  rw [failIf, if_neg hc]
  exact h

theorem Runs.failIf_error {c : Prop} [Decidable c] {e : Err} {f : Unit → DiskM α} (hc : c)
    (hJ : J (view d)) : Does view J (failIf c e >>= f) d (.error e) (view d) := by
  rw [failIf, if_pos hc]
  exact Does.fail hJ

theorem Runs.devRead_bind {lba : ℕ} (hlba : lba < dev.blockCount) {f : Block → DiskM α}
    (h : Does view J (f (d lba)) d r v) : Does view J (devRead dev lba >>= f) d r v := by
  rw [devRead, if_neg (Nat.not_le.mpr hlba)]
  exact Does.readBlock_bind h

theorem runs_devWrite {lba : ℕ} (hlba : lba < dev.blockCount) {data : Block}
    (hm : MetaOk dev.blockCount (view d)) (hm' : MetaOk dev.blockCount v)
    (hv : view (update d lba data) = v) : Runs dev (devWrite dev lba data) d (.ok ()) v := by
  rw [devWrite, if_neg (Nat.not_le.mpr hlba), ← hv]
  exact Does.writeBlock hm (hv ▸ hm')

theorem runs_devFlush (hm : MetaOk dev.blockCount (view d)) :
    Runs dev (devFlush dev) d (.ok ()) (view d) :=
  Does.flushStore hm

/-! ## Bitmaps -/

theorem freeIno_some {ib : ℕ → Bool} {ino : ℕ} (h : freeIno ib = some ino) :
    2 ≤ ino ∧ ino ≤ maxInodes ∧ ib ino = false := by
  have hmem := List.mem_range'_1.mp (List.mem_of_find?_eq_some h)
  have hclear := List.find?_some h
  simp only [maxInodes, Bool.not_eq_true'] at hmem hclear ⊢
  exact ⟨hmem.1, by omega, hclear⟩

/-- The first clear bit among those of the data blocks. -/
theorem freeBlock_eq_some_iff {n : ℕ} {bb : ℕ → Bool} {b : ℕ} :
    freeBlock n bb = some b ↔ (dataStartLba ≤ b ∧ b < n ∧ bb b = false) ∧
      ∀ c, dataStartLba ≤ c → c < b → bb c = true := by
  rw [freeBlock, List.find?_range'_eq_some, List.mem_range'_1]
  simp only [Bool.not_eq_true', Bool.not_not, dataStartLba]
  constructor
  · rintro ⟨hclear, hrange, hbefore⟩
    exact ⟨⟨hrange.1, by omega, hclear⟩, hbefore⟩
  · rintro ⟨⟨hlow, hhigh, hclear⟩, hbefore⟩
    exact ⟨hclear, by omega, hbefore⟩

theorem freeBlock_some {n : ℕ} {bb : ℕ → Bool} {b : ℕ} (h : freeBlock n bb = some b) :
    dataStartLba ≤ b ∧ b < n ∧ bb b = false := (freeBlock_eq_some_iff.mp h).1

theorem freeBlock_none {n : ℕ} {bb : ℕ → Bool} (h : freeBlock n bb = none) {b : ℕ}
    (hlow : dataStartLba ≤ b) (hhigh : b < n) : bb b = true := by
  have hmem : b ∈ List.range' dataStartLba (n - dataStartLba) := by
    rw [List.mem_range'_1]
    omega
  simpa using List.find?_eq_none.mp h b hmem

theorem runs_loadBmaps (hm : MetaOk dev.blockCount (view d)) :
    Runs dev (loadBmaps dev) d (.ok (d inodeBmapLba, d blockBmapLba)) (view d) := by
  have hbounds := hm.bounds.1
  simp only [dataStartLba] at hbounds
  exact Runs.devRead_bind (by simp only [inodeBmapLba]; omega)
    (Runs.devRead_bind (by simp only [blockBmapLba]; omega) (Does.ret hm))

/-- Behind `load_bmaps` the program works on the two bitmaps of the tables. -/
theorem Runs.loadBmaps_bind {α : Type} {f : Block × Block → DiskM α} {r : Except Err α}
    {v : View} (hm : MetaOk dev.blockCount (view d))
    (hf : ∀ ib bb d', view d' = view d → bitTest ib = (view d').ib → bitTest bb = (view d').bb →
      Runs dev (f (ib, bb)) d' r v) : Runs dev (loadBmaps dev >>= f) d r v := by
  refine Does.bind (runs_loadBmaps hm) fun d' hd' => ?_
  apply hf _ _ d' hd'
  · rw [hd']
    rfl
  · rw [hd']
    rfl

theorem runs_storeBmaps (ib bb : Block) (hm : MetaOk dev.blockCount (view d))
    (hmiddle : MetaOk dev.blockCount { view d with ib := bitTest ib })
    (hend : MetaOk dev.blockCount { view d with ib := bitTest ib, bb := bitTest bb }) :
    Runs dev (storeBmaps dev ib bb) d (.ok ())
      { view d with ib := bitTest ib, bb := bitTest bb } := by
  have hbounds := hm.bounds.1
  simp only [dataStartLba] at hbounds
  refine Does.bind (runs_devWrite (by simp only [inodeBmapLba]; omega) hm hmiddle
    (view_update_ib d ib)) fun d' hd' => ?_
  apply runs_devWrite (by simp only [blockBmapLba]; omega) (hd' ▸ hmiddle) hend
  rw [view_update_bb, hd']

/-! ## Inodes -/

/-- The table and the bounds of `read_inode` and `write_inode`. -/
theorem inode_checks {ino : ℕ} (hino : 1 ≤ ino ∧ ino ≤ maxInodes) :
    ¬ (ino = 0 ∨ maxInodes < ino) ∧ ¬ dataStartLba ≤ inodeLba ino ∧
      inodeLba ino < dataStartLba := by
  have := inodeLba_bounds hino
  simp only [rootDirLba, dataStartLba, maxInodes] at *
  omega

theorem does_readInode {ino : ℕ} (hino : 1 ≤ ino ∧ ino ≤ maxInodes)
    (hn : dataStartLba < dev.blockCount) (hJ : J (view d)) :
    Does view J (readInode dev ino) d (.ok ((view d).inode ino)) (view d) := by
  obtain ⟨hzero, hlba, hlt⟩ := inode_checks hino
  have hvalue : (view d).inode ino = (d (inodeLba ino)).slice (inodeOff ino) := if_pos hino
  rw [hvalue]
  exact Runs.failIf_bind hzero (Runs.failIf_bind hlba
    (Runs.devRead_bind (hlt.trans hn) (Does.ret hJ)))

theorem runs_readInode {ino : ℕ} (hino : 1 ≤ ino ∧ ino ≤ maxInodes)
    (hm : MetaOk dev.blockCount (view d)) :
    Runs dev (readInode dev ino) d (.ok ((view d).inode ino)) (view d) :=
  does_readInode hino hm.bounds.1 hm

theorem runs_writeInode {ino : ℕ} (hino : 1 ≤ ino ∧ ino ≤ maxInodes) {x : Inode}
    (hm : MetaOk dev.blockCount (view d))
    (hm' : MetaOk dev.blockCount { view d with inode := update (view d).inode ino x }) :
    Runs dev (writeInode dev ino x) d (.ok ())
      { view d with inode := update (view d).inode ino x } := by
  obtain ⟨hzero, hlba, hlt⟩ := inode_checks hino
  have hvalid := hlt.trans hm.bounds.1
  exact Runs.failIf_bind hzero (Runs.failIf_bind hlba
    (Runs.devRead_bind hvalid (runs_devWrite hvalid hm hm' (view_update_inode d x hino))))

/-! ## Searching and allocating -/

theorem validName_eq (name : CStr) :
    validName name = if ValidName name then .ret name.length else .fail .nametoolong := by
  unfold validName strlenBound
  rw [scanLen_char]
  by_cases hname : ValidName name
  · have hlen : min name.length (maxName + 1) = name.length := by
      have := hname.2
      omega
    have hpass : ¬ (name.length = 0 ∨ maxName < name.length) := by
      have := hname.1
      have := hname.2
      omega
    simp only [hlen, if_neg hpass, if_pos hname]
  · have hfail : min name.length (maxName + 1) = 0 ∨ maxName < min name.length (maxName + 1) := by
      unfold ValidName at hname
      simp only [maxName] at *
      omega
    simp only [if_pos hfail, if_neg hname]

theorem does_validName (name : CStr) (hJ : J (view d)) :
    Does view J (validName name) d
      (if ValidName name then .ok name.length else .error .nametoolong) (view d) := by
  rw [validName_eq]
  split_ifs
  · exact Does.ret hJ
  · exact Does.fail hJ

/-- The result of `find_dirent`. -/
def View.search (v : View) (beyond : UInt8) (name : CStr) : Except Err (ℕ × ℕ) :=
  if ValidName name then
    match v.ent.find beyond name with
    | some s => .ok (s, v.ent.ino s)
    | none => .error .noent
  else .error .nametoolong

theorem does_findDirent (beyond : UInt8) (name : CStr) (hn : dataStartLba < dev.blockCount)
    (hJ : J (view d)) :
    Does view J (findDirent beyond dev name) d ((view d).search beyond name) (view d) := by
  have hvalid := does_validName name hJ
  unfold findDirent View.search
  by_cases hname : ValidName name
  · rw [if_pos hname] at hvalid ⊢
    refine Does.bind hvalid fun d' hd' => ?_
    refine Runs.devRead_bind (by simp only [rootDirLba, dataStartLba] at *; omega) ?_
    rw [find_direntMatches d' beyond hname.2, ← hd']
    cases (view d').ent.find beyond name with
    | none => exact Does.fail (hd' ▸ hJ)
    | some s =>
        dsimp only
        rw [← direntIno_eq]
        exact Does.ret (hd' ▸ hJ)
  · rw [if_neg hname] at hvalid ⊢
    exact Does.bind_error hvalid

theorem runs_findDirent (beyond : UInt8) (name : CStr) (hm : MetaOk dev.blockCount (view d)) :
    Runs dev (findDirent beyond dev name) d ((view d).search beyond name) (view d) :=
  does_findDirent beyond name hm.bounds.1 hm

/-- What `alloc_inode_block` takes, if there is something left. -/
def View.spare (n : ℕ) (v : View) : Option (ℕ × ℕ) :=
  match freeIno v.ib, freeBlock n v.bb with
  | some ino, some b => some (ino, b)
  | _, _ => none

/-- The tables with an inode and a block marked. -/
def View.take (v : View) (ino b : ℕ) : View :=
  { v with ib := update v.ib ino true, bb := update v.bb b true }

theorem runs_allocInodeBlock (hm : MetaOk dev.blockCount (view d)) :
    Runs dev (allocInodeBlock dev) d
      (match (view d).spare dev.blockCount with | some x => .ok x | none => .error .nospc)
      (match (view d).spare dev.blockCount with
        | some x => (view d).take x.1 x.2
        | none => view d) := by
  refine Runs.loadBmaps_bind hm fun ib bb d' hd' hib hbb => ?_
  have hm' : MetaOk dev.blockCount (view d') := hd' ▸ hm
  rw [← hd']
  dsimp only
  rw [hib, hbb]
  unfold View.spare
  cases hino : freeIno (view d').ib with
  | none => exact Does.fail hm'
  | some ino =>
      cases hblock : freeBlock dev.blockCount (view d').bb with
      | none => exact Does.fail hm'
      | some b =>
          have hinoMarked : bitTest (bitSet ib ino) = update (view d').ib ino true := by
            rw [bitTest_bitSet _ ((freeIno_some hino).2.1.trans_lt (by decide)), hib]
          have hblockMarked : bitTest (bitSet bb b) = update (view d').bb b true := by
            rw [bitTest_bitSet _ ((freeBlock_some hblock).2.1.trans_le hm.bounds.2), hbb]
          -- a mark for nobody does no harm, so both writes keep the invariant
          have hstore := runs_storeBmaps (bitSet ib ino) (bitSet bb b) hm'
            (hinoMarked ▸ hm'.markIno ino)
            (hinoMarked ▸ hblockMarked ▸ (hm'.markIno ino).markBlock b)
          rw [hinoMarked, hblockMarked] at hstore
          refine Does.bind hstore fun d'' hd'' => ?_
          dsimp only [View.take]
          rw [← hd'']
          exact Does.ret (hd'' ▸ (hm'.markIno ino).markBlock b)

theorem runs_allocDataBlock (hm : MetaOk dev.blockCount (view d)) :
    Runs dev (allocDataBlock dev) d
      (match freeBlock dev.blockCount (view d).bb with | some b => .ok b | none => .error .nospc)
      (match freeBlock dev.blockCount (view d).bb with
        | some b => { view d with bb := update (view d).bb b true }
        | none => view d) := by
  refine Runs.loadBmaps_bind hm fun ib bb d' hd' hib hbb => ?_
  have hm' : MetaOk dev.blockCount (view d') := hd' ▸ hm
  rw [← hd']
  dsimp only
  rw [hbb]
  cases hblock : freeBlock dev.blockCount (view d').bb with
  | none => exact Does.fail hm'
  | some b =>
      have hblockMarked : bitTest (bitSet bb b) = update (view d').bb b true := by
        rw [bitTest_bitSet _ ((freeBlock_some hblock).2.1.trans_le hm.bounds.2), hbb]
      have hstore := runs_storeBmaps ib (bitSet bb b) hm' (hib ▸ hm')
        (hib ▸ hblockMarked ▸ hm'.markBlock b)
      rw [hib, hblockMarked] at hstore
      refine Does.bind hstore fun d'' hd'' => ?_
      dsimp only
      rw [← hd'']
      exact Does.ret (hd'' ▸ hm'.markBlock b)

/-! ## Freeing -/

/-- The block bitmap without the blocks of the inode `x`. -/
def clearedBlocks (n : ℕ) (x : Inode) (bb : ℕ → Bool) : ℕ → Bool := fun b =>
  bb b && decide (∀ i < directBlocks, ¬ (x.direct i = b ∧ b ≠ 0 ∧ b < n))

theorem bitTest_clearDirect {n : ℕ} (hn : n ≤ 4096) (x : Inode) (bm : Block) :
    bitTest (clearDirect n x bm) = clearedBlocks n x (bitTest bm) := by
  -- over any list of places, the loop clears the blocks of those places
  have hloop : ∀ (l : List ℕ) (bm : Block) (b : ℕ),
      bitTest (l.foldl (fun bb i =>
        if x.direct i ≠ 0 ∧ x.direct i < n then bitClear bb (x.direct i) else bb) bm) b =
      (bitTest bm b && decide (∀ i ∈ l, ¬ (x.direct i = b ∧ b ≠ 0 ∧ b < n))) := by
    intro l
    induction l with
    | nil => intro bm b; simp
    | cons i l ih =>
        intro bm b
        rw [List.foldl_cons, ih]
        simp only [List.forall_mem_cons, Bool.decide_and]
        rw [← Bool.and_assoc]
        congr 1
        by_cases hclear : x.direct i ≠ 0 ∧ x.direct i < n
        · rw [if_pos hclear, bitTest_bitClear _ (hclear.2.trans_le hn)]
          by_cases hb : b = x.direct i
          · subst hb
            simp [hclear.1, hclear.2]
          · have : ¬ (x.direct i = b ∧ b ≠ 0 ∧ b < n) := fun h => hb h.1.symm
            rw [update_of_ne hb, decide_eq_true this, Bool.and_true]
        · have : ¬ (x.direct i = b ∧ b ≠ 0 ∧ b < n) := by
            rintro ⟨rfl, h⟩
            exact hclear h
          rw [if_neg hclear, decide_eq_true this, Bool.and_true]
  funext b
  rw [clearDirect, hloop, clearedBlocks]
  simp only [List.mem_range]

theorem runs_freeInodeAndBlocks {ino : ℕ} {x : Inode} (hino : ino ≤ maxInodes)
    (hm : MetaOk dev.blockCount (view d))
    (hmiddle : MetaOk dev.blockCount { view d with ib := update (view d).ib ino false })
    (hend : MetaOk dev.blockCount
      { view d with
        ib := update (view d).ib ino false
        bb := clearedBlocks dev.blockCount x (view d).bb }) :
    Runs dev (freeInodeAndBlocks dev ino x) d (.ok ())
      { view d with
        ib := update (view d).ib ino false
        bb := clearedBlocks dev.blockCount x (view d).bb } := by
  refine Runs.loadBmaps_bind hm fun ib bb d' hd' hib hbb => ?_
  have hinoCleared : bitTest (bitClear ib ino) = update (view d').ib ino false := by
    rw [bitTest_bitClear _ (hino.trans_lt (by decide)), hib]
  have hblocksCleared : bitTest (clearDirect dev.blockCount x bb) =
      clearedBlocks dev.blockCount x (view d').bb := by
    rw [bitTest_clearDirect hm.bounds.2, hbb]
  rw [← hd', ← hinoCleared] at hmiddle
  rw [← hd', ← hinoCleared, ← hblocksCleared] at hend ⊢
  exact runs_storeBmaps _ _ (hd' ▸ hm) hmiddle hend

end Mcsos.Mcsfs1
