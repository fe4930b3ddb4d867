import Mcsos.Mcsfs1.Format

/-!
# Metadata under failing callbacks and loss of power

The operations stop at the first callback that fails, except that `mcsfs1_create` takes a failing
search for an absent name.  So whatever a faulty execution leaves behind is a disk that a healthy
execution goes through, and there the metadata is good.
-/

namespace Mcsos.Mcsfs1

open Bytes Function Prog

/-! ## Stopping at the first failure -/

section FailsFast

variable (dev : Blkdev)

theorem failsFast_failIf (c : Prop) [Decidable c] (e : Err) : FailsFast (failIf c e) := by
  unfold failIf
  apply FailsFast.ite
  · trivial
  · trivial

theorem failsFast_devRead (lba : ℕ) : FailsFast (devRead dev lba) := by
  unfold devRead
  apply FailsFast.ite
  · trivial
  · exact failsFast_readBlock lba

theorem failsFast_devWrite (lba : ℕ) (data : Block) : FailsFast (devWrite dev lba data) := by
  unfold devWrite
  apply FailsFast.ite
  · trivial
  · exact failsFast_writeBlock lba data

theorem failsFast_loadBmaps : FailsFast (loadBmaps dev) :=
  (failsFast_devRead dev _).bind fun _ => (failsFast_devRead dev _).bind fun _ => trivial

theorem failsFast_storeBmaps (ib bb : Block) : FailsFast (storeBmaps dev ib bb) :=
  (failsFast_devWrite dev _ _).bind fun _ => failsFast_devWrite dev _ _

theorem failsFast_readInode (ino : ℕ) : FailsFast (readInode dev ino) :=
  (failsFast_failIf _ _).bind fun _ => (failsFast_failIf _ _).bind fun _ =>
    (failsFast_devRead dev _).bind fun _ => trivial

theorem failsFast_writeInode (ino : ℕ) (x : Inode) : FailsFast (writeInode dev ino x) :=
  (failsFast_failIf _ _).bind fun _ => (failsFast_failIf _ _).bind fun _ =>
    (failsFast_devRead dev _).bind fun _ => failsFast_devWrite dev _ _

theorem failsFast_validName (name : CStr) : FailsFast (validName name) := by
  rw [validName_eq]
  split_ifs <;> trivial

theorem failsFast_findDirent (beyond : UInt8) (name : CStr) :
    FailsFast (findDirent beyond dev name) :=
  (failsFast_validName name).bind fun _ => (failsFast_devRead dev _).bind fun _ => by
    split <;> trivial

theorem failsFast_allocInodeBlock : FailsFast (allocInodeBlock dev) :=
  (failsFast_loadBmaps dev).bind fun (ib, bb) => by
    dsimp only
    split
    · trivial
    · split
      · trivial
      · exact (failsFast_storeBmaps dev _ _).bind fun _ => trivial

theorem failsFast_allocDataBlock : FailsFast (allocDataBlock dev) :=
  (failsFast_loadBmaps dev).bind fun (ib, bb) => by
    dsimp only
    split
    · trivial
    · exact (failsFast_storeBmaps dev _ _).bind fun _ => trivial

theorem failsFast_allocDirect : ∀ r i x, FailsFast (allocDirect dev r i x) := by
  intro r
  induction r with
  | zero => intro i x; trivial
  | succ r ih =>
      intro i x
      unfold allocDirect
      apply FailsFast.ite
      · exact (failsFast_allocDataBlock dev).bind fun _ => ih _ _
      · exact ih _ _

theorem failsFast_writeData (x : Inode) (data : List UInt8) :
    ∀ r i w, FailsFast (writeData dev x data r i w) := by
  intro r
  induction r with
  | zero => intro i w; trivial
  | succ r ih => exact fun i w => (failsFast_devWrite dev _ _).bind fun _ => ih _ _

theorem failsFast_clearBlocks : ∀ r lba, FailsFast (clearBlocks dev r lba) := by
  intro r
  induction r with
  | zero => intro lba; trivial
  | succ r ih => exact fun lba => (failsFast_devWrite dev _ _).bind fun _ => ih _

theorem failsFast_format : FailsFast (format dev) :=
  (failsFast_failIf _ _).bind fun _ => (failsFast_clearBlocks dev _ _).bind fun _ =>
    (failsFast_devWrite dev _ _).bind fun _ => (failsFast_storeBmaps dev _ _).bind fun _ =>
      (failsFast_writeInode dev _ _).bind fun _ => (failsFast_devWrite dev _ _).bind fun _ =>
        failsFast_flushStore

variable (mnt : Mount)

theorem failsFast_createNew (name : CStr) (len : ℕ) : FailsFast (createNew mnt name len) :=
  (failsFast_devRead mnt.dev _).bind fun _ => by
    split
    · trivial
    · exact (failsFast_allocInodeBlock mnt.dev).bind fun _ =>
        (failsFast_writeInode mnt.dev _ _).bind fun _ =>
          (failsFast_devWrite mnt.dev _ _).bind fun _ => failsFast_flushStore

theorem failsFast_write (beyond : UInt8) (name : CStr) (data : List UInt8) :
    FailsFast (write beyond mnt name data) :=
  (failsFast_failIf _ _).bind fun _ => (failsFast_findDirent mnt.dev _ _).bind fun _ =>
    (failsFast_readInode mnt.dev _).bind fun _ => (failsFast_failIf _ _).bind fun _ =>
      (failsFast_allocDirect mnt.dev _ _ _).bind fun _ =>
        (failsFast_writeData mnt.dev _ _ _ _ _).bind fun _ =>
          (failsFast_writeInode mnt.dev _ _).bind fun _ => failsFast_flushStore

theorem failsFast_unlink (beyond : UInt8) (name : CStr) : FailsFast (unlink beyond mnt name) :=
  (failsFast_findDirent mnt.dev _ _).bind fun _ => (failsFast_readInode mnt.dev _).bind fun _ =>
    (failsFast_devRead mnt.dev _).bind fun _ => (failsFast_devWrite mnt.dev _ _).bind fun _ =>
      ((failsFast_loadBmaps mnt.dev).bind fun _ => failsFast_storeBmaps mnt.dev _ _).bind fun _ =>
        failsFast_flushStore

end FailsFast

/-! ## Faulty executions of one operation -/

/-- The calls that change a filesystem, each with the byte that happens to follow the directory
block in memory. -/
inductive Op where
  | create (beyond : UInt8) (name : CStr)
  | write (beyond : UInt8) (name : CStr) (data : List UInt8)
  | unlink (beyond : UInt8) (name : CStr)

/-- The call as a program. -/
def Op.prog (mnt : Mount) : Op → DiskM Unit
  | .create beyond name => Mcsfs1.create beyond mnt name
  | .write beyond name data => Mcsfs1.write beyond mnt name data
  | .unlink beyond name => Mcsfs1.unlink beyond mnt name

theorem readOnly_findDirent (beyond : UInt8) (dev : Blkdev) (name : CStr) :
    ReadOnly (findDirent beyond dev name) := by
  have hvalid : ReadOnly (validName name) := by
    rw [validName_eq]
    split_ifs <;> trivial
  have hread : ReadOnly (devRead dev rootDirLba) := by
    unfold devRead
    split_ifs
    · trivial
    · intro r
      cases r <;> trivial
  exact hvalid.bind fun _ => hread.bind fun _ => by split <;> trivial

variable {mnt : Mount} {d d' : Disk} {r : Except Err Unit}

/-- `mcsfs1_create` fails at once, or it goes on with or without having found an entry. -/
theorem create_eq (beyond : UInt8) (mnt : Mount) (name : CStr) :
    create beyond mnt name = .fail .nametoolong ∨
      create beyond mnt name = (findDirent beyond mnt.dev name).attempt >>= fun r =>
        match r with
        | .ok _ => .fail .exist
        | .error _ => createNew mnt name name.length := by
  unfold create
  rw [validName_eq]
  split_ifs with hname
  · exact Or.inr rfl
  · exact Or.inl rfl

theorem Op.exec_ok (o : Op) (hm : MetaOk mnt.dev.blockCount (view d))
    (h : Exec (o.prog mnt) d r d') : MetaOk mnt.dev.blockCount (view d') := by
  cases o with
  | write beyond name data =>
      exact ((failsFast_write mnt _ _ _).exec (runs_write beyond name data hm).2.2 h).1
  | unlink beyond name =>
      exact ((failsFast_unlink mnt _ _).exec (runs_unlink beyond name hm).2.2 h).1
  | create beyond name =>
      simp only [Op.prog] at h
      rcases create_eq beyond mnt name with heq | heq
      · rw [heq] at h
        cases h
        exact hm
      · rw [heq] at h
        rcases (readOnly_findDirent beyond mnt.dev name).attempt.exec_bind h with
          ⟨found, hrest⟩ | ⟨_, hsame⟩
        · cases found with
          | ok x =>
              cases hrest
              exact hm
          | error e =>
              exact ((failsFast_createNew mnt _ _).exec (runs_createNew name hm).2.2 hrest).1
        · rw [hsame]
          exact hm

theorem Op.visits_ok (o : Op) (hm : MetaOk mnt.dev.blockCount (view d))
    (h : Visits (o.prog mnt) d d') : MetaOk mnt.dev.blockCount (view d') := by
  cases o with
  | write beyond name data =>
      exact (failsFast_write mnt _ _ _).visits (runs_write beyond name data hm).2.2 h
  | unlink beyond name =>
      exact (failsFast_unlink mnt _ _).visits (runs_unlink beyond name hm).2.2 h
  | create beyond name =>
      simp only [Op.prog] at h
      rcases create_eq beyond mnt name with heq | heq
      · rw [heq] at h
        cases h
        exact hm
      · rw [heq] at h
        rcases (readOnly_findDirent beyond mnt.dev name).attempt.visits_bind h with
          ⟨found, hrest⟩ | hsame
        · cases found with
          | ok x =>
              cases hrest
              exact hm
          | error e => exact (failsFast_createNew mnt _ _).visits (runs_createNew name hm).2.2 hrest
        · rw [hsame]
          exact hm

/-! ## Runs -/

/-- The disks reached from a successful format by operations whose callbacks may fail and that may
be cut off by a loss of power. -/
inductive Reached (mnt : Mount) : Disk → Prop
  | format {d d' : Disk} (h : Exec (format mnt.dev) d (.ok ()) d') : Reached mnt d'
  | op {d d' : Disk} {r : Except Err Unit} (o : Op) (hd : Reached mnt d)
      (h : Exec (o.prog mnt) d r d') : Reached mnt d'
  | cut {d d' : Disk} (o : Op) (hd : Reached mnt d) (h : Visits (o.prog mnt) d d') : Reached mnt d'

theorem exec_format {dev : Blkdev} (h : Exec (format dev) d (.ok ()) d') :
    run (format dev) d = (.ok (), d') := by
  rcases ((failsFast_format dev).exec (along_true _ d) h).2 with hrun | ⟨e, he⟩
  · exact hrun
  · cases he

theorem Reached.metaOk (h : Reached mnt d) : MetaOk mnt.dev.blockCount (view d) := by
  induction h with
  | format h => exact (format_formatted (exec_format h)).ok
  | op o _ h ih => exact o.exec_ok ih h
  | cut o _ h ih => exact o.visits_ok ih h

/-- **Metadata safety.**  In every state reached, also through failing callbacks and losses of
power: on a healthy device `mcsfs1_mount` and `mcsfs1_fsck` succeed; live entries refer to marked
inodes, each to its own; these are files whose size is covered by blocks; and the blocks are marked
data blocks, each referred to once. -/
theorem metadata_safe (h : Reached mnt d) :
    let v := view d
    (run (mount mnt.dev) d).1 = .ok ⟨mnt.dev, mnt.dev.blockCount, dataStartLba⟩ ∧
      (run (fsck mnt.dev) d).1 = .ok () ∧
      (∀ s, v.ent.Live s → 2 ≤ v.ent.ino s ∧ v.ent.ino s ≤ maxInodes ∧ v.ib (v.ent.ino s) = true) ∧
      (∀ s t, v.ent.Live s → v.ent.Live t → v.ent.ino s = v.ent.ino t → s = t) ∧
      (∀ s, v.ent.Live s → (v.inode (v.ent.ino s)).mode = modeFile ∧
        (v.inode (v.ent.ino s)).size ≤ 4096 ∧
        ∀ i, blockSize * i < (v.inode (v.ent.ino s)).size → (v.inode (v.ent.ino s)).direct i ≠ 0) ∧
      (∀ s i b, Owns v.ent v.inode s i b →
        dataStartLba ≤ b ∧ b < mnt.dev.blockCount ∧ v.bb b = true) ∧
      ∀ s t i j b, Owns v.ent v.inode s i b → Owns v.ent v.inode t j b → s = t ∧ i = j := by
  intro v
  have hm := h.metaOk
  refine ⟨(runs_mount hm).1, (runs_fsck hm).1, hm.ino, hm.ino_inj, fun s hs => ?_,
    fun s i b hown => hown.block hm, hm.block_inj⟩
  have hx := hm.inode s hs
  exact ⟨hx.mode, hx.size, hx.covered⟩

theorem metadata_safe_after_create :
    (run (fsck ⟨16⟩) (run (create 0 ⟨⟨16⟩, 16, 8⟩ ⟨[97], by decide⟩)
      (run (format ⟨16⟩) fun _ => zero).2).2).1 = .ok () := by
  obtain ⟨d', hrun, _⟩ := run_format ⟨16⟩ (by decide) (by decide) fun _ => zero
  have hformat : Exec (format ⟨16⟩) (fun _ => zero) (.ok ()) d' := by
    have hexec := exec_run (format ⟨16⟩) fun _ => zero
    rwa [hrun] at hexec
  have hreached : Reached ⟨⟨16⟩, 16, 8⟩ d' := Reached.format hformat
  rw [hrun]
  exact (metadata_safe (hreached.op (.create 0 ⟨[97], by decide⟩) (exec_run _ d'))).2.1

end Mcsos.Mcsfs1
