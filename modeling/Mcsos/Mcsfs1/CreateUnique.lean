import Mcsos.Lib.Faults
import Mcsos.Mcsfs1.ReadDelivered

/-!
# Creating a name twice

`mcsfs1_create` first looks for the name and then reads the directory block once more to put the new
entry into it.  Any failure of the search counts as an absent name, also a read that failed.  If the
directory cannot be read the first time but can be read the second time, then a name that is there
is created once more.

`create_unique_iff` says that this is the only way to a second entry.
-/

namespace Mcsos.Mcsfs1

open Bytes Function Prog

variable {dev : Blkdev} {mnt : Mount} {d d' d₁ d₂ : Disk} {faults : ℕ → Option Err} {beyond : UInt8}
  {name : CStr} {v : View} {s ino b : ℕ}

/-- If the call ends well, where callback `j` fails with `faults j`, then the name was not there
before and is there once afterwards. -/
def NoDuplicate (mnt : Mount) (d : Disk) (beyond : UInt8) (name : CStr) (faults : ℕ → Option Err) :
    Prop :=
  ∀ d', runFaults faults (create beyond mnt name) 0 d = (.ok (), d') →
    (∀ s, (view d).ent.Live s → ((view d).ent s).name ≠ name) ∧
      ∃! s, (view d').ent.Live s ∧ ((view d').ent s).name = name

/-- The name is there, the first of the callbacks fails, the next nine do not, and there is room for
another file. -/
structure Misled (mnt : Mount) (d : Disk) (name : CStr) (faults : ℕ → Option Err) : Prop where
  present : ∃ s, (view d).ent.Live s ∧ ((view d).ent s).name = name
  first : ∃ e, faults 0 = some e
  rest : ∀ k, 1 ≤ k → k < 10 → faults k = none
  slot : ∃ s, (view d).ent.freeSlot = some s
  spare : ∃ x, (view d).spare mnt.dev.blockCount = some x

/-! ## The callbacks of a call -/

theorem callCount_failIf_bind {α : Type} {c : Prop} [Decidable c] {e : Err} {f : Unit → DiskM α}
    (hc : ¬ c) : callCount (failIf c e >>= f) d = callCount (f ()) d := by
  rw [failIf, if_neg hc]
  rfl

theorem callCount_devRead_bind {α : Type} {lba : ℕ} {f : Block → DiskM α}
    (hlba : lba < dev.blockCount) :
    callCount (devRead dev lba >>= f) d = callCount (f (d lba)) d + 1 := by
  rw [devRead, if_neg (Nat.not_le.mpr hlba)]
  rfl

theorem callCount_devWrite {lba : ℕ} {data : Block} (hlba : lba < dev.blockCount) :
    callCount (devWrite dev lba data) d = 1 := by
  rw [devWrite, if_neg (Nat.not_le.mpr hlba)]
  rfl

theorem callCount_storeBmaps {ib bb : Block} (hn : dataStartLba < dev.blockCount) :
    callCount (storeBmaps dev ib bb) d = 2 := by
  have hib : inodeBmapLba < dev.blockCount := (by decide : 1 < 8).trans hn
  have hbb : blockBmapLba < dev.blockCount := (by decide : 2 < 8).trans hn
  rw [storeBmaps, callCount_bind (run_devWrite hib ib), callCount_devWrite hib,
    callCount_devWrite hbb]

theorem run_loadBmaps (hn : dataStartLba < dev.blockCount) :
    run (loadBmaps dev) d = (.ok (d inodeBmapLba, d blockBmapLba), d) := by
  rw [loadBmaps, run_devRead_bind ((by decide : 1 < 8).trans hn),
    run_devRead_bind ((by decide : 2 < 8).trans hn)]
  rfl

theorem callCount_loadBmaps (hn : dataStartLba < dev.blockCount) :
    callCount (loadBmaps dev) d = 2 := by
  rw [loadBmaps, callCount_devRead_bind ((by decide : 1 < 8).trans hn),
    callCount_devRead_bind ((by decide : 2 < 8).trans hn)]
  rfl

theorem callCount_writeInode {x : Inode} (hn : dataStartLba < dev.blockCount)
    (hino : 1 ≤ ino ∧ ino ≤ maxInodes) : callCount (writeInode dev ino x) d = 2 := by
  obtain ⟨hzero, hlba, hlt⟩ := inode_checks hino
  rw [writeInode, callCount_failIf_bind hzero, callCount_failIf_bind hlba,
    callCount_devRead_bind (hlt.trans hn), callCount_devWrite (hlt.trans hn)]

/-- Two reads and two writes. -/
theorem callCount_allocInodeBlock (hm : MetaOk dev.blockCount (view d))
    (hspare : (view d).spare dev.blockCount = some (ino, b)) :
    callCount (allocInodeBlock dev) d = 4 := by
  have hn := hm.bounds.1
  have hfree : freeIno (bitTest (d inodeBmapLba)) = some ino ∧
      freeBlock dev.blockCount (bitTest (d blockBmapLba)) = some b := spare_eq_some_iff.mp hspare
  rw [allocInodeBlock, callCount_bind (run_loadBmaps hn), callCount_loadBmaps hn]
  dsimp only
  rw [hfree.1]
  dsimp only
  rw [hfree.2]
  dsimp only
  rw [callCount_bind (run_storeBmaps ((by decide : 2 < 8).trans hn) _ _), callCount_storeBmaps hn]
  rfl

/-- The whole of `mcsfs1_create` behind its search. -/
theorem callCount_createNew (hm : MetaOk mnt.dev.blockCount (view d))
    (hslot : (view d).ent.freeSlot = some s)
    (hspare : (view d).spare mnt.dev.blockCount = some (ino, b)) :
    callCount (createNew mnt name name.length) d = 9 := by
  have hn := hm.bounds.1
  have hdir : rootDirLba < mnt.dev.blockCount := (by decide : 7 < 8).trans hn
  obtain ⟨⟨hlow, hhigh, -⟩, -⟩ := spare_some hspare
  have hino : 1 ≤ ino ∧ ino ≤ maxInodes := ⟨by omega, hhigh⟩
  have halloc : run (allocInodeBlock mnt.dev) d =
      (.ok (ino, b), (run (allocInodeBlock mnt.dev) d).2) := by
    have hresult := (runs_allocInodeBlock hm).1
    rw [hspare] at hresult
    exact Prod.ext hresult rfl
  rw [createNew, callCount_devRead_bind hdir, freeSlot_eq, hslot]
  dsimp only
  rw [callCount_bind halloc, callCount_allocInodeBlock hm hspare]
  dsimp only
  rw [callCount_bind (run_writeInode hino hn.le _), callCount_writeInode hn hino,
    callCount_bind (run_devWrite hdir _), callCount_devWrite hdir]
  rfl

/-! ## The call -/

/-- What is left of `mcsfs1_create` for a name that passes its check. -/
theorem create_eq_read (hname : ValidName name) (hdir : rootDirLba < mnt.dev.blockCount) :
    create beyond mnt name = .read rootDirLba fun r =>
      match r with
      | .ok block =>
          match (List.range direntCount).find? (direntMatches beyond block name name.length) with
          | some _ => .fail .exist
          | none => createNew mnt name name.length
      | .error _ => createNew mnt name name.length := by
  unfold create findDirent
  rw [validName_eq, if_pos hname, devRead, if_neg (Nat.not_le.mpr hdir)]
  refine congrArg (Prog.read rootDirLba) (funext fun r => ?_)
  cases r with
  | error e => rfl
  | ok block =>
    simp only [Prog.ofExcept, Prog.bind]
    cases (List.range direntCount).find? (direntMatches beyond block name name.length) with
    | none => rfl
    | some i => rfl

/-- A call that ends well goes on after a search that failed, or that found nothing. -/
theorem runFaults_create_eq_ok (hname : ShortName name) (hdir : rootDirLba < mnt.dev.blockCount) :
    runFaults faults (create beyond mnt name) 0 d = (.ok (), d') ↔
      ((∃ e, faults 0 = some e) ∨ (view d).ent.slotOf name = none) ∧
        runFaults faults (createNew mnt name name.length) 1 d = (.ok (), d') := by
  rw [create_eq_read hname.valid hdir, runFaults_read]
  cases faults 0 with
  | some e =>
    dsimp only
    simp
  | none =>
    dsimp only
    rw [find_direntMatches d beyond hname.valid.2, find_eq_slotOf beyond hname]
    cases (view d).ent.slotOf name with
    | none => simp
    | some s => simp [runFaults]

theorem createNew_ok (hm : MetaOk mnt.dev.blockCount (view d))
    (h : (run (createNew mnt name name.length) d) = (.ok (), d')) :
    ∃ s ino b, (view d).ent.freeSlot = some s ∧
      (view d).spare mnt.dev.blockCount = some (ino, b) ∧ view d' = (view d).link s ino b name := by
  obtain ⟨hresult, hview, -⟩ := runs_createNew name hm
  rw [h] at hresult hview
  unfold View.createNew at hresult hview
  cases hslot : (view d).ent.freeSlot with
  | none =>
    rw [hslot] at hresult
    cases hresult
  | some s =>
    cases hspare : (view d).spare mnt.dev.blockCount with
    | none =>
      rw [hslot, hspare] at hresult
      cases hresult
    | some x =>
      rw [hslot, hspare] at hview
      exact ⟨s, x.1, x.2, rfl, rfl, hview⟩

/-- The entry of the new file. -/
theorem entry_link (hslot : v.ent.freeSlot = some s) {n : ℕ} (hspare : v.spare n = some (ino, b))
    (hname : name.length ≤ maxName) :
    (v.link s ino b name).ent.Live s ∧ ((v.link s ino b name).ent s).name = name := by
  obtain ⟨⟨hlow, hhigh, -⟩, -⟩ := spare_some hspare
  have hino : Entry.ino (dirent ino name name.length) = ino :=
    dirent_ino name (hhigh.trans_lt (by decide))
  refine ⟨live_update_self (freeSlot_some hslot).1 (by rw [hino]; omega), ?_⟩
  dsimp only [View.link]
  rw [update_self]
  exact dirent_name ino hname

/-- It is the only one of its name. -/
theorem existsUnique_link (hslot : v.ent.freeSlot = some s) {n : ℕ}
    (hspare : v.spare n = some (ino, b)) (hname : name.length ≤ maxName)
    (hnew : ∀ t, v.ent.Live t → (v.ent t).name ≠ name) :
    ∃! t, (v.link s ino b name).ent.Live t ∧ ((v.link s ino b name).ent t).name = name := by
  refine ⟨s, entry_link hslot hspare hname, ?_⟩
  rintro t ⟨hlive, hentry⟩
  dsimp only [View.link] at hlive hentry
  by_contra hne
  rw [name_update_of_ne hne] at hentry
  exact hnew t ((live_update_of_ne hne).mp hlive) hentry

/-- A search that is misled makes the call end well although the name is there. -/
theorem runFaults_create_of_misled (hm : MetaOk mnt.dev.blockCount (view d)) (beyond : UInt8)
    (hname : ShortName name) (h : Misled mnt d name faults) :
    ∃ s ino b d', (view d).ent.freeSlot = some s ∧
      (view d).spare mnt.dev.blockCount = some (ino, b) ∧
      runFaults faults (create beyond mnt name) 0 d = (.ok (), d') ∧
      view d' = (view d).link s ino b name := by
  have hdir : rootDirLba < mnt.dev.blockCount := (by decide : 7 < 8).trans hm.bounds.1
  obtain ⟨s, hslot⟩ := h.slot
  obtain ⟨x, hspare⟩ := h.spare
  obtain ⟨hresult, hview, -⟩ := runs_createNew name hm
  rw [View.createNew, hslot, hspare] at hresult hview
  have hrun : runFaults faults (createNew mnt name name.length) 1 d =
      (.ok (), (run (createNew mnt name name.length) d).2) := by
    refine (failsFast_createNew mnt name _).runFaults_eq_ok.mpr
      ⟨Prod.ext hresult rfl, fun j hj => ?_⟩
    rw [callCount_createNew hm hslot hspare] at hj
    exact h.rest (1 + j) (Nat.le_add_right 1 j) (by omega)
  exact ⟨s, x.1, x.2, _, hslot, hspare,
    (runFaults_create_eq_ok hname hdir).mpr ⟨Or.inl h.first, hrun⟩, hview⟩

/-- **A name is created twice only if the search is misled.**  In every state reached from a format,
also through failing callbacks and losses of power, whatever the callbacks do. -/
theorem create_unique_iff (h : Reached mnt d) (beyond : UInt8) (hname : ShortName name)
    (faults : ℕ → Option Err) :
    NoDuplicate mnt d beyond name faults ↔ ¬ Misled mnt d name faults := by
  have hm := h.metaOk
  constructor
  · intro hno hmisled
    obtain ⟨s, hs, hentry⟩ := hmisled.present
    obtain ⟨-, -, -, d', -, -, hrun, -⟩ := runFaults_create_of_misled hm beyond hname hmisled
    exact (hno d' hrun).1 s hs hentry
  · intro hmisled d' hrun
    have hdir : rootDirLba < mnt.dev.blockCount := (by decide : 7 < 8).trans hm.bounds.1
    obtain ⟨hsearch, hrun⟩ := (runFaults_create_eq_ok hname hdir).mp hrun
    obtain ⟨hhealthy, hcalls⟩ := (failsFast_createNew mnt name _).runFaults_eq_ok.mp hrun
    obtain ⟨s, ino, b, hslot, hspare, hview⟩ := createNew_ok hm hhealthy
    rw [callCount_createNew hm hslot hspare] at hcalls
    have hnew : ∀ t, (view d).ent.Live t → ((view d).ent t).name ≠ name := by
      rcases hsearch with hfirst | hnone
      · intro t ht hentry
        refine hmisled ⟨⟨t, ht, hentry⟩, hfirst, fun k hlow hhigh => ?_, ⟨s, hslot⟩, ⟨_, hspare⟩⟩
        have := hcalls (k - 1) (by omega)
        rwa [Nat.add_sub_cancel' hlow] at this
      · exact fun t => slotOf_none hnone
    rw [hview]
    exact ⟨hnew, existsUnique_link hslot hspare hname.valid.2 hnew⟩

/-- The call leads to such a state again, so that `create_unique_iff` is about every call of a
history. -/
theorem Reached.create (h : Reached mnt d) (beyond : UInt8) (name : CStr)
    (faults : ℕ → Option Err) :
    Reached mnt (runFaults faults (create beyond mnt name) 0 d).2 :=
  h.op (.create beyond name) (exec_runFaults faults _ 0 d)

theorem reached_oneFile : Reached smallMount oneFile := by
  obtain ⟨d, hrun, -⟩ := run_format ⟨16⟩ (by decide) (by decide) fun _ => zero
  have hformat : Reached smallMount d := Reached.format (exec_of_run hrun)
  have hfile : Reached smallMount ((Op.create 0 fileName).step smallMount d) :=
    hformat.op _ (exec_run _ d)
  rw [oneFile, hrun]
  exact hfile

/-- Without failures there is no second file of that name. -/
theorem create_unique_no_faults :
    ¬ Misled smallMount oneFile fileName (fun _ => none) ∧
      NoDuplicate smallMount oneFile 0 fileName (fun _ => none) := by
  have hno : ¬ Misled smallMount oneFile fileName (fun _ => none) := by
    intro h
    obtain ⟨e, he⟩ := h.first
    cases he
  exact ⟨hno, (create_unique_iff reached_oneFile 0 (by decide) _).mpr hno⟩

/-- Only the first callback fails. -/
def firstFails : ℕ → Option Err
  | 0 => some .io
  | _ + 1 => none

/-- On `oneFile` the name of its file is created once more and then belongs to slots 0 and 1. -/
theorem create_duplicates_name :
    Reached smallMount oneFile ∧ ShortName fileName ∧
      (∃ d', runFaults firstFails (create 0 smallMount fileName) 0 oneFile = (.ok (), d') ∧
        ((view d').ent.Live 0 ∧ ((view d').ent 0).name = fileName) ∧
        (view d').ent.Live 1 ∧ ((view d').ent 1).name = fileName) ∧
      ¬ NoDuplicate smallMount oneFile 0 fileName firstFails := by
  obtain ⟨d, hformatted, hm, hview⟩ := view_oneFile
  have hslot : (view oneFile).ent.slotOf fileName = some 0 := by
    rw [hview]
    exact ((slotOf_first hformatted (by decide)).2 fileName).trans (if_pos rfl)
  obtain ⟨hlive, hentry⟩ := slotOf_some hslot
  have hmisled : Misled smallMount oneFile fileName firstFails := by
    refine ⟨⟨0, hlive, hentry⟩, ⟨.io, rfl⟩, fun k hlow _ => ?_, ⟨1, ?_⟩, ⟨(3, 9), ?_⟩⟩
    · obtain ⟨j, rfl⟩ : ∃ j, k = j + 1 := ⟨k - 1, by omega⟩
      rfl
    · rw [hview]
      exact freeSlot_first hformatted fileName
    · rw [hview]
      exact spare_first hformatted (by decide) fileName
  have hok : MetaOk smallMount.dev.blockCount (view oneFile) := hview ▸ hm
  obtain ⟨s, ino, b, d', hs, hspare, hrun, hafter⟩ :=
    runFaults_create_of_misled hok 0 (by decide) hmisled
  have hsecond : s = 1 := by
    rw [hview, freeSlot_first hformatted fileName] at hs
    exact (Option.some.inj hs).symm
  subst hsecond
  refine ⟨reached_oneFile, by decide, ⟨d', hrun, ?_, ?_⟩, fun hno => (hno d' hrun).1 0 hlive hentry⟩
  · rw [hafter]
    dsimp only [View.link]
    exact ⟨(live_update_of_ne (by decide)).mpr hlive, (name_update_of_ne (by decide)).trans hentry⟩
  · rw [hafter]
    exact entry_link hs hspare (by decide)

end Mcsos.Mcsfs1
