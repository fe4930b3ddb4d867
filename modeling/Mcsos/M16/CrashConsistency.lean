import Mcsos.M16.FileCrash

/-!
# Crash consistency of files

Every device reached from a freshly formatted one by calls of `m16_write_file`, each of them
complete or cut off and followed by a later mount, is at rest (`Reachable.atRest`).  From such a
device the next call, cut off anywhere, is seen after the next mount either in full or not at all,
and the other files do not notice (`writeFile_crash_consistent`).
-/

namespace Mcsos.M16

open Bytes

/-! ## A formatted device -/

/-- The state that `m16_format` sets up. -/
def formatState : FsState where
  super := formatSuper maxBlocks
  ib := bitmapSet zero 0
  bb := (List.range dataStartLba).foldl bitmapSet zero
  inodes := setInode zero 0 1 2 0 rootDirLba
  dir := zero
  data := fun _ => zero

/-- The writes of `m16_format`. -/
def formatWrites : List (ℕ × Block) :=
  [(0, formatSuper maxBlocks), (inodeBitmapLba, formatState.ib), (blockBitmapLba, formatState.bb),
    (inodeTableLba, tableBlock formatState.inodes 0),
    (inodeTableLba + 1, tableBlock formatState.inodes 1),
    (inodeTableLba + 2, tableBlock formatState.inodes 2),
    (inodeTableLba + 3, tableBlock formatState.inodes 3), (rootDirLba, zero), clearWrite]

/-- The state that `m16_format` sets up on a device of `total` blocks. -/
def formatStateOf (total : ℕ) : FsState := { formatState with super := formatSuper total }

/-- The writes of `m16_format` on a device of `total` blocks. -/
def formatWritesOf (total : ℕ) : List (ℕ × Block) := (0, formatSuper total) :: formatWrites.tail

/-- The device that `m16_format` starts to write to. -/
def Dev.blank (dev : Dev) : Dev := { dev with blocks := fun _ => zero }

variable {dev : Dev}

theorem format_eq (hfail : dev.failAfter < 0) (htotal : rootDirLba < dev.totalBlocks) :
    format dev = (.ok (), dev.blank.storeAll (formatWritesOf dev.totalBlocks)) := by
  have hvalid : ∀ w ∈ formatWritesOf dev.totalBlocks, dev.blank.validLba w.1 := by
    intro w hw
    simp only [formatWritesOf, formatWrites, clearWrite, List.tail_cons, List.mem_cons,
      List.not_mem_nil, or_false] at hw
    rcases hw with rfl | rfl | rfl | rfl | rfl | rfl | rfl | rfl | rfl <;>
      exact validLba_of_le htotal (by simp)
  have hclear : journalClear = writeAll [clearWrite] := (writeAll_singleton clearWrite).symm
  have hwrites : format dev = writeAll (formatWritesOf dev.totalBlocks) dev.blank := by
    rw [format, Act.modify_bind_apply, Act.get_bind_apply, hclear]
    simp only [formatInodeTable, Act.bind_assoc, Act.pure_bind]
    rfl
  rw [hwrites, writeAll_eq hvalid, accepted_of_neg (show dev.blank.failAfter < 0 from hfail),
    if_pos rfl, List.take_length]

/-- The blocks in front of the data are marked, and no others. -/
theorem bitmapGet_formatState (i : ℕ) : bitmapGet formatState.bb i = decide (i < dataStartLba) := by
  have hsmall : ∀ j ∈ List.range dataStartLba, j / 8 < 512 := by
    intro j hj
    have hlt := List.mem_range.mp hj
    simp only [dataStartLba] at hlt
    omega
  have hloop : bitmapGet formatState.bb i = (decide (i ∈ List.range dataStartLba) || false) :=
    (testBit_foldl_setBit zero i hsmall).trans (by rw [testBit_zero])
  rw [hloop, Bool.or_false]
  exact decide_eq_decide.mpr List.mem_range

theorem superOk_formatSuper (total : ℕ) : SuperOk (formatSuper total) := by
  constructor <;>
    simp (disch := omega) only [formatSuper, u64, u32, setU32, setU64, word_splice_of_disjoint,
      word_splice_wordBytes] <;> rfl

theorem formatStateOf_ok (total : ℕ) : FsOk (formatStateOf total) := by
  constructor
  · exact superOk_formatSuper total
  · exact (bitmapGet_bitmapSet zero 0 (by decide)).trans (by simp)
  · exact inodeUsed_setInode (by decide)
  · exact inodeKind_setInode (by decide)
  · exact inodeDirect0_setInode (by decide)
  · intro i hi
    exact (bitmapGet_formatState i).trans (decide_eq_true hi)
  · intro i _ hused
    exact absurd (u32_zero _) hused

theorem formatState_ok : FsOk formatState := formatStateOf_ok maxBlocks

theorem fsState_formatWritesOf (total : ℕ) :
    fsState (applyWrites (formatWritesOf total) fun _ => zero) = formatStateOf total := by
  have htable : inodeTable (applyWrites (formatWritesOf total) fun _ => zero) =
      formatState.inodes := by
    apply inodeTable_eq_of_blocks
    intro i hi
    interval_cases i <;> simp [formatWritesOf, formatWrites, clearWrite, applyWrites]
  have hdata : (fun i => applyWrites (formatWritesOf total) (fun _ => zero) (25 + i)) =
      fun _ => zero := by
    funext i
    apply applyWrites_of_ne
    intro w hw
    simp only [formatWritesOf, formatWrites, clearWrite, List.tail_cons, List.mem_cons,
      List.not_mem_nil, or_false] at hw
    rcases hw with rfl | rfl | rfl | rfl | rfl | rfl | rfl | rfl | rfl <;>
      simp only [inodeBitmapLba, blockBitmapLba, inodeTableLba, rootDirLba, journalStart] <;>
      omega
  rw [fsState, htable, hdata]
  simp [formatWritesOf, formatWrites, clearWrite, applyWrites, formatState, formatStateOf]

/-- A device after `m16_format`. -/
theorem format_spec (hfail : dev.failAfter < 0) (htotal : rootDirLba < dev.totalBlocks) :
    (format dev).1 = .ok () ∧ (format dev).2.totalBlocks = dev.totalBlocks ∧
      (format dev).2.failAfter < 0 ∧ (format dev).2.blocks journalStart = zero ∧
      fsState (format dev).2.blocks = formatStateOf dev.totalBlocks := by
  have hcounter : (dev.blank.storeAll (formatWritesOf dev.totalBlocks)).failAfter < 0 := by
    rw [storeAll_failAfter_of_neg (show dev.blank.failAfter < 0 from hfail)]
    exact hfail
  rw [format_eq hfail htotal]
  refine ⟨rfl, storeAll_totalBlocks _ _, hcounter, ?_, ?_⟩
  · rw [storeAll_blocks]
    simp [formatWritesOf, formatWrites, clearWrite, applyWrites]
  · rw [storeAll_blocks]
    exact fsState_formatWritesOf _

theorem format_atRest :
    AtRest (format devInit).2 ∧ fsState (format devInit).2.blocks = formatState := by
  obtain ⟨-, htotal, -, hheader, hstate⟩ :=
    format_spec (by decide : devInit.failAfter < 0) (by decide)
  exact ⟨⟨htotal, hheader, hstate ▸ formatState_ok⟩, hstate⟩

/-! ## Reachable devices -/

/-- The device after calls of `m16_write_file` with a name, data and a fault injection counter
each. -/
def writeFiles (dev : Dev) (calls : List (CStr × List UInt8 × ℤ)) : Dev :=
  calls.foldl (fun d c => (writeFile c.1 c.2.1 (d.withFailAfter c.2.2)).2) dev

/-- The devices reached from a formatted one by calls of `m16_write_file` that are complete, or of
which one or more are cut off after some number of writes each and followed by a mount with writes
enabled again. -/
inductive Reachable : Dev → Prop
  | format : Reachable (format devInit).2
  | write {dev : Dev} (name : CStr) (data : List UInt8) (h : Reachable dev) :
      Reachable (writeFile name data (dev.withFailAfter (-1))).2
  | crash {dev : Dev} (calls : List (CStr × List UInt8 × ℤ)) (h : Reachable dev) :
      Reachable (mount ((writeFiles dev calls).withFailAfter (-1))).2

variable {s : FsState} {name : CStr} {data : List UInt8} {p : Plan}

/-- A call that is cut off after `fail` writes, followed by a mount. -/
theorem writeFile_mount (h : AtRest dev) (name : CStr) (data : List UInt8) (fail : ℤ) :
    let mounted := mount ((writeFile name data (dev.withFailAfter fail)).2.withFailAfter (-1))
    mounted.1.isOk = true ∧ AtRest mounted.2 ∧
      fsState mounted.2.blocks = outcome (fsState dev.blocks) name data fail :=
  (writeFile_recoversTo (h.withFailAfter fail) name data).1.mount (outcome_ok h.fs name data fail)

theorem RecoversTo.writeFiles (h : RecoversTo dev s) (hs : FsOk s)
    (calls : List (CStr × List UInt8 × ℤ)) :
    ∃ s', FsOk s' ∧ RecoversTo (M16.writeFiles dev calls) s' := by
  induction calls generalizing dev s with
  | nil => exact ⟨s, hs, h⟩
  | cons c calls ih =>
      obtain ⟨s', hs', h'⟩ := (h.withFailAfter c.2.2).writeFile hs c.1 c.2.1
      exact ih h' hs'

theorem Reachable.atRest (h : Reachable dev) : AtRest dev := by
  induction h with
  | format => exact format_atRest.1
  | write name data _ ih =>
      exact (writeFile_complete (ih.withFailAfter (-1)) (by decide : (-1 : ℤ) < 0) name data).1
  | crash calls _ ih =>
      have hnow := RecoversTo.of_settled ih.total ⟨ih.header, fun _ _ => rfl⟩
      obtain ⟨s, hs, hrecovers⟩ := hnow.writeFiles ih.fs calls
      exact (hrecovers.mount hs).2.1

/-! ## Reading files in the three outcomes -/

theorem lookup_of_noent (h : findDirent s.dir name = .error .noent) (behind : ℕ → UInt8)
    (outCap : ℕ) : lookup s behind name outCap = .error .noent := by
  rw [lookup, h]

theorem PlanOk.lookup_linked (hplan : PlanOk s name data p) {outCap : ℕ}
    (hcap : data.length ≤ outCap) (behind : ℕ → UInt8) :
    lookup ((s.reserve p.ino p.blk data.length).link p.slot p.ino p.blk name data) behind name
      outCap = .ok data := by
  have hblk : p.blk < 2 ^ 32 := hplan.free.blk_small.trans (by decide)
  have hsize : data.length < 2 ^ 32 := hplan.fits.trans_lt (by decide)
  have hinodeSize : inodeSize (s.reserve p.ino p.blk data.length).inodes p.ino = data.length := by
    rw [reserve_inodes, inodeSize_setInode hplan.free.ino_lt, Nat.mod_eq_of_lt hsize]
  have hinodeBlk : inodeDirect0 (s.reserve p.ino p.blk data.length).inodes p.ino = p.blk := by
    rw [reserve_inodes, inodeDirect0_setInode hplan.free.ino_lt, Nat.mod_eq_of_lt hblk]
  have hnew : findDirent (s.reserve p.ino p.blk data.length).dir name = .error .noent := hplan.new
  exact lookup_link_self hnew hplan.slot_lt hplan.name_lt hplan.free.ino_lt hinodeSize hplan.fits
    hinodeBlk hcap behind

/-- The other names do not notice a call, whatever becomes of it. -/
theorem lookup_outcome_of_ne (h : FsOk s) {other : CStr} (hother : other ≠ name) (data : List UInt8)
    (fail : ℤ) (behind : ℕ → UInt8) (outCap : ℕ) :
    lookup (outcome s name data fail) behind other outCap = lookup s behind other outCap := by
  unfold outcome
  split
  case h_1 => rfl
  case h_2 p hp =>
      have hplan := plan_ok hp
      have hreserve : lookup (s.reserve p.ino p.blk data.length) behind other outCap =
          lookup s behind other outCap := lookup_reserve h hplan.free behind outCap
      have hblk : ∀ i < direntCount, direntUsed s.dir i ≠ 0 →
          inodeDirect0 (s.reserve p.ino p.blk data.length).inodes (direntIno s.dir i) ≠ p.blk := by
        intro i hi hused
        obtain ⟨hne, hfree⟩ := hplan.free.ne (h.entries i hi hused)
        rw [reserve_inodes, inodeDirect0_setInode_of_ne hne]
        exact hfree
      split_ifs
      · rw [lookup_link (hplan.reserve_ok h) hplan.slot_lt hplan.slot_unused
          hplan.name_lt hother hblk hplan.free.blk_low, hreserve]
      · exact hreserve
      · rfl

/-- The new name is either there with its data or not there. -/
theorem lookup_outcome (h : FsOk s) (hnew : findDirent s.dir name = .error .noent)
    (data : List UInt8) (fail : ℤ) (behind : ℕ → UInt8) {outCap : ℕ} (hcap : data.length ≤ outCap) :
    lookup (outcome s name data fail) behind name outCap =
      if (plan s name data).isOk = true ∧ (fail < 0 ∨ 27 ≤ fail) then .ok data
      else .error .noent := by
  unfold outcome
  cases hp : plan s name data with
  | error e => simpa [Except.isOk, Except.toBool] using lookup_of_noent hnew behind outCap
  | ok p =>
      have hplan := plan_ok hp
      have hisOk : (Except.ok p : Except Err Plan).isOk = true := rfl
      simp only [hisOk, true_and]
      split_ifs
      · exact hplan.lookup_linked hcap behind
      · rw [lookup_reserve h hplan.free, lookup_of_noent hnew]
      · exact lookup_of_noent hnew behind outCap

/-- On a formatted device the first file gets inode 1, block 25 and the first entry. -/
theorem plan_formatState {data : List UInt8} (hfits : data.length ≤ blockSize) :
    plan formatState ⟨[97], by decide⟩ data = .ok ⟨1, 25, 0⟩ := by
  have hino : findFreeInode formatState.ib = .ok 1 := by decide +kernel
  have hblk : findFreeBlock formatState.bb = .ok 25 := by decide +kernel
  have hslot : findFreeDirent formatState.dir = .ok 0 := by decide +kernel
  have hnew : ¬ (findDirent formatState.dir ⟨[97], by decide⟩).isOk = true := by decide +kernel
  rw [plan, if_neg (by decide), if_neg (Nat.not_lt.mpr hfits), if_neg hnew, hino, hblk, hslot]

/-- **Crash consistency.**  Let a call of `m16_write_file` with a name that is not in the directory
be cut off after any number `fail` of writes (none, if negative).  After the next mount the
filesystem check passes; reading the name gives either its data or `M16_E_NOENT`, and the former
if the call had returned `M16_E_OK`; and reading any other name gives what it gave before. -/
theorem writeFile_crash_consistent (hreach : Reachable dev)
    (hnew : findDirent (dev.blocks rootDirLba) name = .error .noent) (data : List UInt8)
    (fail : ℤ) :
    let call := writeFile name data (dev.withFailAfter fail)
    let mounted := mount (call.2.withFailAfter (-1))
    mounted.1.isOk = true ∧ (fsck mounted.2).1 = .ok () ∧
      ((∀ behind outCap, data.length ≤ outCap →
          (readFile behind name outCap mounted.2).1 = .ok data) ∨
        ∀ behind outCap, data.length ≤ outCap →
          (readFile behind name outCap mounted.2).1 = .error .noent) ∧
      (call.1 = .ok () → ∀ behind outCap, data.length ≤ outCap →
        (readFile behind name outCap mounted.2).1 = .ok data) ∧
      ∀ other, other ≠ name → ∀ behind outCap,
        (readFile behind other outCap mounted.2).1 = (readFile behind other outCap dev).1 := by
  intro call mounted
  have hrest := hreach.atRest
  obtain ⟨hmount, hrest', hstate⟩ := writeFile_mount hrest name data fail
  -- reading after the mount is looking up in the outcome of the call
  have hlookup : ∀ other behind outCap, (readFile behind other outCap mounted.2).1 =
      lookup (outcome (fsState dev.blocks) name data fail) behind other outCap := by
    intro other behind outCap
    exact (readFile_result hrest'.sound behind other outCap).trans
      (congrArg (lookup · behind other outCap) hstate)
  have hread : ∀ behind outCap, data.length ≤ outCap →
      (readFile behind name outCap mounted.2).1 =
        if (plan (fsState dev.blocks) name data).isOk = true ∧ (fail < 0 ∨ 27 ≤ fail) then .ok data
        else .error .noent := fun behind outCap hcap =>
    (hlookup name behind outCap).trans (lookup_outcome hrest.fs hnew data fail behind hcap)
  refine ⟨hmount, congrArg Prod.fst (fsck_eq hrest'.sound), ?_, ?_, ?_⟩
  · by_cases hdone : (plan (fsState dev.blocks) name data).isOk = true ∧ (fail < 0 ∨ 27 ≤ fail)
    · exact Or.inl fun behind outCap hcap => (hread behind outCap hcap).trans (if_pos hdone)
    · exact Or.inr fun behind outCap hcap => (hread behind outCap hcap).trans (if_neg hdone)
  · intro hok behind outCap hcap
    obtain ⟨p, hp, hfail⟩ := (writeFile_recoversTo (hrest.withFailAfter fail) name data).2 hok
    have hplan : (plan (fsState dev.blocks) name data).isOk = true := by
      rw [← withFailAfter_blocks dev fail, hp]
      rfl
    exact (hread behind outCap hcap).trans (if_pos ⟨hplan, hfail⟩)
  · intro other hother behind outCap
    rw [hlookup, lookup_outcome_of_ne hrest.fs hother]
    exact (readFile_result hrest.sound behind other outCap).symm

/-- Nothing is found in an empty directory. -/
theorem findDirent_zero (name : CStr) : findDirent zero name = .error .noent := by
  have hnone : (List.range direntCount).find? (fun i => direntUsed zero i != 0 &&
      streq (direntName zero i) name.char) = none := by
    apply List.find?_eq_none.mpr
    intro i _
    have hunused : direntUsed zero i = 0 := u32_zero _
    simp [hunused]
  rw [findDirent, hnone]

theorem findDirent_format (name : CStr) :
    findDirent ((format devInit).2.blocks rootDirLba) name = .error .noent := by
  have hdir : (format devInit).2.blocks rootDirLba = zero := congrArg FsState.dir format_atRest.2
  rw [hdir, findDirent_zero]

theorem writeFile_crash_consistent_formatted :
    (fsck (mount ((writeFile ⟨[97], by decide⟩ [1, 2, 3]
      ((format devInit).2.withFailAfter 20)).2.withFailAfter (-1))).2).1 = .ok () :=
  (writeFile_crash_consistent Reachable.format (findDirent_format ⟨[97], by decide⟩) [1, 2, 3]
    20).2.1

end Mcsos.M16
