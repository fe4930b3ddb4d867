import Mcsos.M16.CrashConsistency
import Mcsos.M16.FailClosed

/-!
# What the filesystem check promises a reader

The checks of `m16_fsck` cover everything that `m16_read_file` relies on.  Whatever the blocks held
before, and whatever the journal did to them, a device on which the check has succeeded is `Sound`:
checking it again changes nothing, and every name can be read or is not there.
-/

namespace Mcsos.M16

open Bytes

variable {dev dev' : Dev}

/-! ## Operations that end well -/

theorem readBlock_eq_ok {lba : ℕ} {blk : Block} (h : readBlock lba dev = (.ok blk, dev')) :
    dev.validLba lba ∧ dev = dev' ∧ dev.blocks lba = blk := by
  unfold readBlock at h
  split_ifs at h with hvalid
  · cases h
    exact ⟨hvalid, rfl, rfl⟩
  · cases h

theorem writeBlock_eq_ok {lba : ℕ} {data : Block} {u : Unit}
    (h : writeBlock lba data dev = (.ok u, dev')) :
    dev' = dev.store lba data := by
  unfold writeBlock at h
  split_ifs at h
  · cases h
  · cases h
    rfl
  · cases h

/-- Recovery that ends well leaves an empty journal. -/
theorem journalRecover_eq_ok {u : Unit} (h : journalRecover dev = (.ok u, dev')) :
    headerEmpty (dev'.blocks journalStart) ∧ dev'.totalBlocks = dev.totalBlocks := by
  unfold journalRecover at h
  obtain ⟨header, s, hread, hrest⟩ := Act.bind_eq_ok h
  obtain ⟨-, rfl, rfl⟩ := readBlock_eq_ok hread
  split_ifs at hrest with hempty
  · cases hrest
    exact ⟨hempty, rfl⟩
  · obtain ⟨-, hsum⟩ := Act.failIf_bind_eq_ok hrest
    obtain ⟨-, hreplay⟩ := Act.failIf_bind_eq_ok hsum
    obtain ⟨v, t, hrecords, hclear⟩ := Act.bind_eq_ok hreplay
    rw [writeBlock_eq_ok hclear, store_blocks, Function.update_self, store_totalBlocks]
    exact ⟨headerEmpty_zero, (recoverRecords_eq_ok hrecords).1⟩

theorem mount_eq_ok {sb : Block} (h : mount dev = (.ok sb, dev')) :
    headerEmpty (dev'.blocks journalStart) ∧ dev'.totalBlocks = dev.totalBlocks ∧
      SuperOk (dev'.blocks 0) := by
  unfold mount at h
  obtain ⟨u, s, hrecover, hrest⟩ := Act.bind_eq_ok h
  obtain ⟨hempty, htotal⟩ := journalRecover_eq_ok hrecover
  obtain ⟨blk, t, hread, hcheck⟩ := Act.bind_eq_ok hrest
  obtain ⟨-, rfl, rfl⟩ := readBlock_eq_ok hread
  obtain ⟨hfields, hcheck'⟩ := Act.failIf_bind_eq_ok hcheck
  obtain ⟨hlayout, hdone⟩ := Act.failIf_bind_eq_ok hcheck'
  cases hdone
  push Not at hfields hlayout
  exact ⟨hempty, htotal, hfields.1, hfields.2.1, hfields.2.2, hlayout.1, hlayout.2⟩

/-! ## The check -/

/-- An entry that passes is in order. -/
theorem direntConsistent_iff {total i : ℕ} {s : FsState} (hused : direntUsed s.dir i ≠ 0)
    (htotal : total ≤ maxBlocks) :
    direntConsistent total s.ib s.bb s.inodes s.dir i = true ↔
      InodeOk s (direntIno s.dir i) ∧ inodeDirect0 s.inodes (direntIno s.dir i) < total := by
  refine ⟨fun h => ?_, fun h => h.1.consistent h.2⟩
  simp only [direntConsistent, beq_eq_false_iff_ne.mpr hused, Bool.false_or, Bool.and_eq_true,
    Bool.not_eq_true', Bool.or_eq_false_iff, decide_eq_false_iff_not, Nat.not_le, Nat.not_lt,
    Bool.not_eq_false', bne_eq_false_iff_eq, beq_eq_false_iff_ne] at h
  obtain ⟨⟨⟨hino, hmarked⟩, ⟨hinode, hkind⟩, hsize⟩, ⟨hlow, hhigh⟩, hblock⟩ := h
  exact ⟨⟨hino, hmarked, hinode, hkind, hsize, hlow, hhigh.trans_le htotal, hblock⟩, hhigh⟩

theorem loadInodeTableFrom_eq_ok {remaining i : ℕ} {t t' : InodeTable}
    (h : loadInodeTableFrom remaining i t dev = (.ok t', dev')) : dev = dev' := by
  induction remaining generalizing dev i t with
  | zero =>
    cases h
    rfl
  | succ remaining ih =>
    obtain ⟨blk, s, hread, hrest⟩ := Act.bind_eq_ok h
    obtain ⟨-, rfl, -⟩ := readBlock_eq_ok hread
    exact ih hrest

/-- A device is in order after a check that ends well. -/
theorem fsck_eq_ok {u : Unit} (htotal : dev.totalBlocks ≤ maxBlocks)
    (h : fsck dev = (.ok u, dev')) :
    Sound dev' := by
  unfold fsck at h
  obtain ⟨sb, s, hmount, h₁⟩ := Act.bind_eq_ok h
  obtain ⟨hempty, hkept, hsuper⟩ := mount_eq_ok hmount
  obtain ⟨ib, t, hib, h₂⟩ := Act.bind_eq_ok h₁
  obtain ⟨-, rfl, rfl⟩ := readBlock_eq_ok hib
  obtain ⟨bb, t, hbb, h₃⟩ := Act.bind_eq_ok h₂
  obtain ⟨-, rfl, rfl⟩ := readBlock_eq_ok hbb
  obtain ⟨inodes, t, htable, h₄⟩ := Act.bind_eq_ok h₃
  obtain ⟨dir, t', hdir, h₅⟩ := Act.bind_eq_ok h₄
  obtain rfl := loadInodeTableFrom_eq_ok htable
  obtain ⟨hlast, rfl, rfl⟩ := readBlock_eq_ok hdir
  rw [loadInodeTable_eq hlast.1] at htable
  obtain rfl : inodeTable s.blocks = inodes := Except.ok.inj (congrArg Prod.fst htable)
  obtain ⟨hroot, h₆⟩ := Act.failIf_bind_eq_ok h₅
  obtain ⟨hreserved, h₇⟩ := Act.failIf_bind_eq_ok h₆
  rw [Act.get_bind_apply, Act.failIf] at h₇
  split_ifs at h₇ with hentries
  · cases h₇
  obtain rfl : s = dev' := congrArg Prod.snd h₇
  push Not at hroot
  rw [Bool.not_eq_true, List.any_eq_false] at hreserved hentries
  have hgood : ∀ i < direntCount, direntUsed (fsState s.blocks).dir i ≠ 0 →
      InodeOk (fsState s.blocks) (direntIno (fsState s.blocks).dir i) ∧
        inodeDirect0 (fsState s.blocks).inodes (direntIno (fsState s.blocks).dir i) <
          s.totalBlocks := by
    intro i hi hused
    refine (direntConsistent_iff hused (hkept.trans_le htotal)).mp ?_
    simpa [fsState] using hentries i (List.mem_range.mpr hi)
  refine ⟨hlast.1, hkept.trans_le htotal, hempty,
    ⟨hsuper, ?_, hroot.2.1, hroot.2.2.1, hroot.2.2.2, ?_,
    fun i hi hused => (hgood i hi hused).1⟩, fun i hi hused => (hgood i hi hused).2⟩
  · simpa [fsState] using hroot.1
  · intro i hi
    simpa [fsState] using hreserved i (List.mem_range.mpr hi)

/-! ## Reading after a check -/

/-- The used entry `i` has the given name. -/
def Matches (dir : Block) (name : CStr) (i : ℕ) : Prop :=
  direntUsed dir i ≠ 0 ∧ streq (direntName dir i) name.char = true

theorem findDirent_error_iff {dir : Block} {name : CStr} :
    findDirent dir name = .error .noent ↔ ∀ i < direntCount, ¬ Matches dir name i := by
  unfold findDirent Matches
  split
  case h_1 i hi =>
    have hmem := List.mem_range.mp (List.mem_of_find?_eq_some hi)
    have hfound := List.find?_some hi
    simp only [Bool.and_eq_true, bne_iff_ne] at hfound
    constructor
    · intro h
      cases h
    · exact fun h => absurd hfound (h i hmem)
  case h_2 hnone =>
    refine ⟨fun _ i hi hmatch => ?_, fun _ => rfl⟩
    have hnot := List.find?_eq_none.mp hnone i (List.mem_range.mpr hi)
    simp [hmatch.1, hmatch.2] at hnot

theorem findDirent_error_noent {dir : Block} {name : CStr} {e : Err}
    (h : findDirent dir name = .error e) : e = .noent := by
  unfold findDirent at h
  split at h
  · cases h
  · cases h
    rfl

/-- A copy of at most one block stays inside of it. -/
theorem copyOut_of_le (blk : Block) (behind : ℕ → UInt8) {size : ℕ} (h : size ≤ blockSize) :
    copyOut blk behind size = (List.range size).map blk.byte := by
  apply List.map_congr_left
  intro i hi
  exact if_pos ((List.mem_range.mp hi).trans_le h)

/-- **Soundness of the check.**  For every device image of at most 128 blocks: if `m16_fsck` returns
`M16_E_OK`, then on the device it leaves it does so again without changing anything, and reading any
name into a buffer of 512 bytes or more gives `M16_E_NOENT`, if no used entry has the name, or
the first bytes, 512 at most, of a marked data block inside of the device. -/
theorem fsck_sound (dev dev' : Dev) (htotal : dev.totalBlocks ≤ maxBlocks)
    (hfsck : fsck dev = (.ok (), dev')) :
    fsck dev' = (.ok (), dev') ∧
    ∀ behind name outCap, blockSize ≤ outCap →
      ((∀ i < direntCount, ¬ Matches (dev'.blocks rootDirLba) name i) ∧
        readFile behind name outCap dev' = (.error .noent, dev')) ∨
      ((∃ i < direntCount, Matches (dev'.blocks rootDirLba) name i) ∧
        ∃ blk size, dataStartLba ≤ blk ∧ blk < dev'.totalBlocks ∧
          bitmapGet (dev'.blocks blockBitmapLba) blk = true ∧ size ≤ blockSize ∧
          readFile behind name outCap dev' =
            (.ok ((List.range size).map (dev'.blocks blk).byte), dev')) := by
  have hsound := fsck_eq_ok htotal hfsck
  refine ⟨fsck_eq hsound, fun behind name outCap hcap => ?_⟩
  rw [readFile_eq hsound, lookup]
  cases hfind : findDirent (fsState dev'.blocks).dir name with
  | error e =>
    obtain rfl : e = .noent := findDirent_error_noent hfind
    exact Or.inl ⟨findDirent_error_iff.mp hfind, rfl⟩
  | ok slot =>
    obtain ⟨hslot, hused, heq⟩ := findDirent_ok hfind
    have hentry := hsound.fs.entries slot hslot hused
    refine Or.inr ⟨⟨slot, hslot, hused, heq⟩, _, _, hentry.data_low, hsound.inside slot hslot hused,
      hentry.data_marked, hentry.size, ?_⟩
    dsimp only
    rw [if_neg (Nat.not_lt.mpr (hentry.size.trans hcap)), copyOut_of_le _ _ hentry.size]
    have hblock : (fsState dev'.blocks).data (inodeDirect0 (fsState dev'.blocks).inodes
        (direntIno (fsState dev'.blocks).dir slot) - dataStartLba) =
          dev'.blocks (inodeDirect0 (fsState dev'.blocks).inodes
            (direntIno (fsState dev'.blocks).dir slot)) :=
      congrArg dev'.blocks (Nat.add_sub_cancel' hentry.data_low)
    rw [hblock]

/-- A formatted device on which a file of three bytes has been written. -/
def threeBytes (name : CStr) : Dev := (writeFile name [1, 2, 3] (format devInit).2).2

private theorem threeBytes_spec : ∃ name,
    Sound (threeBytes name) ∧
      readFile (fun _ => 0) name 512 (threeBytes name) = (.ok [1, 2, 3], threeBytes name) := by
  obtain ⟨hrest, hstate⟩ := format_atRest
  have hplan : plan formatState ⟨[97], by decide⟩ [1, 2, 3] = .ok ⟨1, 25, 0⟩ :=
    plan_formatState (by decide)
  obtain ⟨hdone, hwritten⟩ := writeFile_complete hrest (by decide) ⟨[97], by decide⟩ [1, 2, 3]
  have hsound : Sound (threeBytes ⟨[97], by decide⟩) := hdone.sound
  refine ⟨_, hsound, ?_⟩
  rw [hstate, outcome, hplan] at hwritten
  have hlinked : fsState (threeBytes ⟨[97], by decide⟩).blocks =
      (formatState.reserve 1 25 3).link 0 1 25 ⟨[97], by decide⟩ [1, 2, 3] :=
    hwritten.trans (if_pos (Or.inl (by decide)))
  have hfound : lookup (fsState (threeBytes ⟨[97], by decide⟩).blocks) (fun _ => 0)
      ⟨[97], by decide⟩ 512 = .ok [1, 2, 3] := by
    rw [hlinked]
    exact (plan_ok hplan).lookup_linked (by decide) _
  rw [readFile_eq hsound, hfound]

/-- The device passes the check, and what is read of its file are the first three bytes of a marked
data block. -/
theorem fsck_sound_three_bytes : ∃ name,
    fsck (threeBytes name) = (.ok (), threeBytes name) ∧
      ∃ blk, dataStartLba ≤ blk ∧ blk < (threeBytes name).totalBlocks ∧
        bitmapGet ((threeBytes name).blocks blockBitmapLba) blk = true ∧
        (List.range 3).map ((threeBytes name).blocks blk).byte = [1, 2, 3] ∧
        readFile (fun _ => 0) name 512 (threeBytes name) =
          (.ok [1, 2, 3], threeBytes name) := by
  obtain ⟨name, hsound, hfile⟩ := threeBytes_spec
  obtain ⟨hagain, hread⟩ := fsck_sound _ _ hsound.total_high (fsck_eq hsound)
  refine ⟨name, hagain, ?_⟩
  rcases hread (fun _ => 0) name 512 le_rfl with
    ⟨-, hnone⟩ | ⟨-, blk, size, hlow, hinside, hmarked, -, hbytes⟩
  -- the file is there
  · rw [hfile] at hnone
    cases hnone
  · rw [hfile] at hbytes
    have hcontent : [1, 2, 3] = (List.range size).map ((threeBytes name).blocks blk).byte := by
      injection hbytes with hresult _
      injection hresult
    have hsize : size = 3 := by
      have hlength := congrArg List.length hcontent
      rw [List.length_map, List.length_range] at hlength
      exact hlength.symm
    rw [hsize] at hcontent
    exact ⟨blk, hlow, hinside, hmarked, hcontent.symm, hfile⟩

end Mcsos.M16
