import Mcsos.M16.CrashConsistency

/-!
# What a crash can leak

`m16_write_file` commits the bitmaps and the inode table in one transaction and the directory in
the next one.  Complete calls leave nothing marked that no directory entry refers to
(`Written.noLeak`).  A call that is cut off does so too, unless the cut falls between the headers
of the two transactions; then exactly the inode and the block of that call are left over
(`writeFile_crash_leak`).
-/

namespace Mcsos.M16

open Bytes

/-- Some used directory entry refers to inode `ino`. -/
def Referenced (s : FsState) (ino : ℕ) : Prop :=
  ∃ i < direntCount, direntUsed s.dir i ≠ 0 ∧ direntIno s.dir i = ino

/-- Inode `ino` is marked in the bitmap or has `used` set. -/
def Taken (s : FsState) (ino : ℕ) : Prop :=
  bitmapGet s.ib ino = true ∨ inodeUsed s.inodes ino ≠ 0

/-- Apart from the inodes in `orphans` and the blocks in `lost`, everything that is taken belongs
to a file of the directory. -/
structure NoLeakBut (s : FsState) (orphans lost : List ℕ) : Prop where
  inode : ∀ ino, ino ≠ 0 → ino ∉ orphans → Taken s ino → Referenced s ino
  block : ∀ blk, dataStartLba ≤ blk → blk ∉ lost → bitmapGet s.bb blk = true →
    ∃ ino, Referenced s ino ∧ inodeDirect0 s.inodes ino = blk

/-- Bitmaps, inode table and directory describe the same set of files. -/
def NoLeak (s : FsState) : Prop := NoLeakBut s [] []

variable {s : FsState} {name : CStr} {data : List UInt8} {p : Plan} {dev : Dev}

theorem formatState_noLeak : NoLeak formatState := by
  constructor
  · intro ino hino _ htaken
    exfalso
    rcases htaken with hmarked | hused
    · have hget := bitmapGet_bitmapSet zero ino (by decide : 0 < 4096)
      have hzero : bitmapGet zero ino = false := testBit_zero ino
      rw [hzero, decide_eq_false (Ne.symm hino)] at hget
      exact absurd (hget.symm.trans hmarked) (by decide)
    · exact hused ((inodeUsed_setInode_of_ne hino).trans (u32_zero _))
  · intro blk hblk _ hmarked
    exfalso
    rw [bitmapGet_formatState, decide_eq_true_eq] at hmarked
    exact absurd hmarked (Nat.not_lt.mpr hblk)

/-! ## The two steps of a creation -/

/-- A referenced inode is a file, so it is not the one a plan takes. -/
theorem Referenced.ne (h : FsOk s) (hplan : PlanOk s name data p) {ino : ℕ}
    (href : Referenced s ino) : ino ≠ p.ino := by
  obtain ⟨i, hi, hused, rfl⟩ := href
  exact (hplan.free.ne (h.entries i hi hused)).1

/-- After the first transaction the inode and the block of the plan are left over. -/
theorem NoLeak.reserve (hleak : NoLeak s) (h : FsOk s) (hplan : PlanOk s name data p) :
    NoLeakBut (s.reserve p.ino p.blk data.length) [p.ino] [p.blk] := by
  constructor
  · intro ino hino hother htaken
    rw [List.mem_singleton] at hother
    have hbefore : Taken s ino := by
      refine htaken.imp (fun hmarked => ?_) fun hused => ?_
      · rwa [reserve_ib, bitmapGet_bitmapSet s.ib ino hplan.free.ino_small,
          decide_eq_false (Ne.symm hother), Bool.false_or] at hmarked
      · rwa [reserve_inodes, inodeUsed_setInode_of_ne hother] at hused
    exact hleak.inode ino hino List.not_mem_nil hbefore
  · intro blk hblk hother hmarked
    rw [List.mem_singleton] at hother
    rw [reserve_bb, bitmapGet_bitmapSet s.bb blk hplan.free.blk_small,
      decide_eq_false (Ne.symm hother), Bool.false_or] at hmarked
    obtain ⟨ino, href, hdirect⟩ := hleak.block blk hblk List.not_mem_nil hmarked
    exact ⟨ino, href, (inodeDirect0_setInode_of_ne (href.ne h hplan)).trans hdirect⟩

/-- What the plan took is marked, no entry refers to its inode, and no file has its block. -/
theorem PlanOk.orphan (h : FsOk s) (hplan : PlanOk s name data p) :
    Taken (s.reserve p.ino p.blk data.length) p.ino ∧
      ¬ Referenced (s.reserve p.ino p.blk data.length) p.ino ∧
      bitmapGet (s.reserve p.ino p.blk data.length).bb p.blk = true ∧
      inodeDirect0 (s.reserve p.ino p.blk data.length).inodes p.ino = p.blk ∧
      bitmapGet (s.reserve p.ino p.blk data.length).ib p.ino = true ∧
      ∀ ino, Referenced (s.reserve p.ino p.blk data.length) ino →
        inodeDirect0 (s.reserve p.ino p.blk data.length).inodes ino ≠ p.blk := by
  have hino := inodeOk_reserve hplan.free hplan.fits
  have hdirect : inodeDirect0 (s.reserve p.ino p.blk data.length).inodes p.ino = p.blk := by
    rw [reserve_inodes, inodeDirect0_setInode hplan.free.ino_lt,
      Nat.mod_eq_of_lt (hplan.free.blk_small.trans (by decide))]
  have hmarked := hino.data_marked
  rw [hdirect] at hmarked
  -- the first transaction does not touch the directory
  have hbefore : ∀ {ino}, Referenced (s.reserve p.ino p.blk data.length) ino → Referenced s ino :=
    fun href => href
  refine ⟨Or.inl hino.marked, fun href => (hbefore href).ne h hplan rfl, hmarked, hdirect,
    hino.marked, fun ino href => ?_⟩
  rw [reserve_inodes, inodeDirect0_setInode_of_ne ((hbefore href).ne h hplan)]
  obtain ⟨i, hi, hused, rfl⟩ := hbefore href
  exact (hplan.free.ne (h.entries i hi hused)).2

/-- A new entry in an unused slot takes no reference away. -/
theorem Referenced.link {slot ino blk j : ℕ} (hslot : direntUsed s.dir slot = 0)
    (hname : name.length < maxName) (href : Referenced s j) :
    Referenced (s.link slot ino blk name data) j := by
  obtain ⟨i, hi, hused, rfl⟩ := href
  have hne : i ≠ slot := by
    rintro rfl
    exact hused hslot
  refine ⟨i, hi, ?_, direntIno_setDirent_of_ne hne hname.le⟩
  rwa [link_dir, direntUsed_setDirent_of_ne hne hname.le]

/-- The second transaction takes in what the first one left over. -/
theorem NoLeakBut.link {slot ino blk : ℕ} (hleak : NoLeakBut s [ino] [blk])
    (hslot : slot < direntCount) (hunused : direntUsed s.dir slot = 0)
    (hname : name.length < maxName) (hino : ino < maxInodes)
    (hdirect : inodeDirect0 s.inodes ino = blk) : NoLeak (s.link slot ino blk name data) := by
  have hnew : Referenced (s.link slot ino blk name data) ino := by
    refine ⟨slot, hslot, ?_, ?_⟩
    · rw [link_dir, direntUsed_setDirent hslot]
      decide
    · rw [link_dir, direntIno_setDirent hslot, Nat.mod_eq_of_lt (hino.trans (by decide))]
  constructor
  · intro j hj _ htaken
    by_cases heq : j = ino
    · rw [heq]
      exact hnew
    · have hother : j ∉ [ino] := fun hmem => heq (List.mem_singleton.mp hmem)
      exact (hleak.inode j hj hother htaken).link hunused hname
  · intro k hk _ hmarked
    by_cases heq : k = blk
    · exact ⟨ino, hnew, hdirect.trans heq.symm⟩
    · have hother : k ∉ [blk] := fun hmem => heq (List.mem_singleton.mp hmem)
      obtain ⟨j, href, hj⟩ := hleak.block k hk hother hmarked
      exact ⟨j, href.link hunused hname, hj⟩

theorem NoLeak.linked (hleak : NoLeak s) (h : FsOk s) (hplan : PlanOk s name data p) :
    NoLeak ((s.reserve p.ino p.blk data.length).link p.slot p.ino p.blk name data) :=
  (hleak.reserve h hplan).link hplan.slot_lt hplan.slot_unused hplan.name_lt hplan.free.ino_lt
    (hplan.orphan h).2.2.2.1

/-! ## Runs -/

/-- The devices reached from a formatted one by complete calls of `m16_write_file`. -/
inductive Written : Dev → Prop
  | format : Written (format devInit).2
  | write {dev : Dev} (name : CStr) (data : List UInt8) (h : Written dev) :
      Written (writeFile name data (dev.withFailAfter (-1))).2

theorem Written.reachable (h : Written dev) : Reachable dev := by
  induction h with
  | format => exact Reachable.format
  | write name data _ ih => exact ih.write name data

theorem Written.noLeak (h : Written dev) : NoLeak (fsState dev.blocks) := by
  induction h with
  | format =>
      rw [format_atRest.2]
      exact formatState_noLeak
  | @write dev name data hdev ih =>
      have hrest := hdev.reachable.atRest
      rw [(writeFile_complete (hrest.withFailAfter (-1)) (by decide : (-1 : ℤ) < 0) name data).2,
        outcome]
      split
      case h_1 => exact ih
      case h_2 p hp =>
          rw [withFailAfter_failAfter, if_pos (Or.inl (by decide : (-1 : ℤ) < 0))]
          exact ih.linked hrest.fs (plan_ok hp)

/-- **Leaks of a crash.**  After a call of `m16_write_file` that is cut off after `fail` writes and
the next mount, everything that is taken belongs to a file of the directory, except when the call
got as far as the header of its first transaction and not as far as that of its second one; then
the inode and the block of the call, and nothing else, are marked and belong to no file. -/
theorem writeFile_crash_leak (hwritten : Written dev) (name : CStr) (data : List UInt8)
    (fail : ℤ) :
    let mounted := mount ((writeFile name data (dev.withFailAfter fail)).2.withFailAfter (-1))
    let after := fsState mounted.2.blocks
    mounted.1.isOk = true ∧
      match plan (fsState dev.blocks) name data with
      | .error _ => NoLeak after
      | .ok p =>
          if 14 ≤ fail ∧ fail < 27 then
            NoLeakBut after [p.ino] [p.blk] ∧ Taken after p.ino ∧ ¬ Referenced after p.ino ∧
              bitmapGet after.bb p.blk = true ∧ inodeDirect0 after.inodes p.ino = p.blk ∧
              bitmapGet after.ib p.ino = true ∧
              ∀ ino, Referenced after ino → inodeDirect0 after.inodes ino ≠ p.blk
          else NoLeak after := by
  intro mounted after
  have hrest := hwritten.reachable.atRest
  have hleak := hwritten.noLeak
  obtain ⟨hmount, _, hstate⟩ := writeFile_mount hrest name data fail
  have hafter : after = outcome (fsState dev.blocks) name data fail := hstate
  refine ⟨hmount, ?_⟩
  rw [hafter, outcome]
  cases hp : plan (fsState dev.blocks) name data with
  | error e => exact hleak
  | ok p =>
      have hplan := plan_ok hp
      dsimp only
      by_cases hbetween : 14 ≤ fail ∧ fail < 27
      -- the first transaction is committed and the second one is not
      · rw [if_pos hbetween, if_neg (by omega), if_pos hbetween.1]
        exact ⟨hleak.reserve hrest.fs hplan, hplan.orphan hrest.fs⟩
      · rw [if_neg hbetween]
        split_ifs
        · exact hleak.linked hrest.fs hplan
        · omega
        · exact hleak

theorem writeFile_crash_leak_formatted :
    NoLeak (fsState (mount ((writeFile ⟨[97], by decide⟩ []
      ((format devInit).2.withFailAfter 27)).2.withFailAfter (-1))).2.blocks) := by
  have hleak := (writeFile_crash_leak Written.format ⟨[97], by decide⟩ [] 27).2
  rw [format_atRest.2, plan_formatState (by decide)] at hleak
  exact hleak

/-- Cut off right after the header of its first transaction, the first call on a formatted device
leaves inode 1 taken and without a name. -/
theorem writeFile_leaks_inode :
    ∃ ino, ino ≠ 0 ∧
      Taken (fsState (mount ((writeFile ⟨[97], by decide⟩ []
        ((format devInit).2.withFailAfter 14)).2.withFailAfter (-1))).2.blocks) ino ∧
      ¬ Referenced (fsState (mount ((writeFile ⟨[97], by decide⟩ []
        ((format devInit).2.withFailAfter 14)).2.withFailAfter (-1))).2.blocks) ino := by
  have hstate := (writeFile_mount format_atRest.1 ⟨[97], by decide⟩ [] 14).2.2
  have hplan : plan formatState ⟨[97], by decide⟩ [] = .ok ⟨1, 25, 0⟩ :=
    plan_formatState (by decide)
  have horphan := (plan_ok hplan).orphan formatState_ok
  rw [format_atRest.2, outcome, hplan] at hstate
  refine ⟨1, by decide, ?_, ?_⟩
  · rw [hstate]
    exact horphan.1
  · rw [hstate]
    exact horphan.2.1

end Mcsos.M16
