import Mcsos.M16.FailClosed
import Mcsos.M16.WriteOnce

/-!
# Devices of any size

`m16_find_free_block` looks for a block below `M16_MAX_BLOCKS`, whatever the size of the device.  On
a device with fewer than 37 blocks the directory still has room when all its blocks are taken.  The
next file then gets a block behind the end of the device: its first transaction is carried out, the
second one is committed and cannot be written home, and every later mount finds a journal record
with a target that does not exist.
-/

namespace Mcsos.M16

open Bytes

variable {dev : Dev} {files : List File} {name : CStr} {data : List UInt8}

/-! ## What should hold -/

/-- The device can be mounted and passes the check, and no inode refers to a block behind its
end. -/
structure Mountable (dev : Dev) : Prop where
  mount : (mount dev).1.isOk = true
  fsck : (fsck dev).1 = .ok ()
  inside : ∀ ino < maxInodes, inodeDirect0 (fsState dev.blocks).inodes ino < dev.totalBlocks

/-- There is no data block, no inode or no directory entry left. -/
def Full (dev : Dev) : Prop :=
  (∀ b, dataStartLba ≤ b → b < dev.totalBlocks → bitmapGet (fsState dev.blocks).bb b = true) ∨
  (∀ ino < maxInodes, bitmapGet (fsState dev.blocks).ib ino = true) ∨
  ∀ i < direntCount, direntUsed (fsState dev.blocks).dir i ≠ 0

/-- The device after a call of `m16_write_file`. -/
def writeStep (f : File) (dev : Dev) : Dev := (writeFile f.1 f.2 dev).2

/-- The name is not in the directory yet, and could be written. -/
def Creates (f : File) (dev : Dev) : Prop :=
  Valid f.1 f.2 ∧ findDirent (fsState dev.blocks).dir f.1 = .error .noent

/-- A file that should be created on a full device is refused, and nothing is changed. -/
def RefusesFull (f : File) (dev : Dev) : Prop :=
  Creates f dev → Full dev → writeFile f.1 f.2 dev = (.error .nospc, dev)

/-- If a file should be created, there is a data block for it, or no directory entry. -/
def FitsDevice (f : File) (dev : Dev) : Prop :=
  Creates f dev →
    (∃ b, dataStartLba ≤ b ∧ b < dev.totalBlocks ∧ bitmapGet (fsState dev.blocks).bb b = false) ∨
    ∀ i < direntCount, direntUsed (fsState dev.blocks).dir i ≠ 0

/-! ## A block behind the end -/

theorem writeAll_of_invalid {ws rest : List (ℕ × Block)} {w : ℕ × Block} (hfail : dev.failAfter < 0)
    (hvalid : ∀ v ∈ ws, dev.validLba v.1) (hbad : ¬ dev.validLba w.1) :
    writeAll (ws ++ w :: rest) dev = (.error .inval, dev.storeAll ws) := by
  have hgood : writeAll ws dev = (.ok (), dev.storeAll ws) := by
    rw [writeAll_eq hvalid, accepted_of_neg hfail, if_pos rfl, List.take_length]
  have hstop : writeBlock w.1 w.2 (dev.storeAll ws) = (.error .inval, dev.storeAll ws) := by
    refine if_pos fun hlba => hbad ?_
    rwa [Dev.validLba, storeAll_totalBlocks] at hlba
  rw [writeAll_append, Act.bind_of_ok hgood, writeAll, Act.bind_of_error hstop]

variable {tx : Tx} {b : ℕ → Block} {total i : ℕ} {r : Jrec}

/-- A record as it was committed is good if its target exists. -/
theorem Committed.recordOk (h : Committed b tx) (hcount : tx.length ≤ journalMaxRecords)
    (htotal : 18 ≤ total) (hr : tx[i]? = some r) (htarget : blockExists total r.targetLba) :
    RecordOk total b i := by
  have hlt : i < journalMaxRecords := (List.getElem?_eq_some_iff.mp hr).1.trans_le hcount
  have hlast := dataLba_lt hlt
  simp only [journalStart, journalBlocks] at hlast
  have hsmall : r.targetLba % 2 ^ 32 = r.targetLba := Nat.mod_eq_of_lt (htarget.2.trans (by decide))
  refine ⟨⟨by omega, by simp only [maxBlocks]; omega⟩, ?_, ?_, ?_⟩
  · rw [h.desc i r hr, descriptor_magic]
  · rwa [h.desc i r hr, descriptor_target, hsmall]
  · rw [h.desc i r hr, h.data i r hr, descriptor_checksum]

/-- It is corrupt otherwise. -/
theorem Committed.recordCorrupt (h : Committed b tx) (hcount : tx.length ≤ journalMaxRecords)
    (htotal : 18 ≤ total) (hr : tx[i]? = some r) (hsmall : r.targetLba < 2 ^ 32)
    (htarget : ¬ blockExists total r.targetLba) : RecordCorrupt total b i := by
  have hlt : i < journalMaxRecords := (List.getElem?_eq_some_iff.mp hr).1.trans_le hcount
  have hlast := dataLba_lt hlt
  simp only [dataLba, journalStart, journalBlocks] at hlast
  refine ⟨⟨by omega, by simp only [maxBlocks]; omega⟩, Or.inr (Or.inl ?_)⟩
  rwa [h.desc i r hr, descriptor_target, Nat.mod_eq_of_lt hsmall]

/-- A committed journal whose second record has a target that does not exist. -/
theorem recover_of_missing_target {r₀ r₁ : Jrec} (hfail : dev.failAfter < 0)
    (htotal : 18 ≤ dev.totalBlocks) (h : Committed dev.blocks [r₀, r₁])
    (hgood : dev.validLba r₀.targetLba) (houtside : ¬ inJournal r₀.targetLba)
    (hsmall : r₁.targetLba < 2 ^ 32) (hbad : ¬ dev.validLba r₁.targetLba) :
    (journalRecover dev).1 = .error .corrupt := by
  have hcount : [r₀, r₁].length ≤ journalMaxRecords := by simp
  obtain ⟨seq, hseq⟩ := h.header
  have hfirst : RecordOk dev.totalBlocks dev.blocks 0 := h.recordOk hcount htotal rfl hgood
  have htarget : (dev.blocks (descLba 0)).u32 8 = r₀.targetLba := by
    rw [h.desc 0 r₀ rfl, descriptor_target, Nat.mod_eq_of_lt (hgood.2.trans (by decide))]
  have hcopied : Committed (copyRecord dev.blocks 0) [r₀, r₁] := by
    unfold copyRecord
    rw [htarget]
    exact h.update hcount houtside _
  refine (recover_corrupt_iff hfail).mpr ⟨journalStart_valid htotal, ?_, fun _ =>
    ⟨1, ?_, hfirst, ?_⟩⟩
  · rw [hseq]
    exact commitHeader_not_empty seq _
  · rw [hseq, commitHeader_count seq hcount]
    simp
  · exact hcopied.recordCorrupt hcount htotal rfl hsmall hbad

/-- A commit of two records, the second of them for a block that does not exist: it stops there, and
the journal that it leaves cannot be replayed. -/
theorem commit_missing_target {r₀ r₁ : Jrec} (hfail : dev.failAfter < 0)
    (htotal : 18 ≤ dev.totalBlocks) (hgood : dev.validLba r₀.targetLba)
    (houtside : ¬ inJournal r₀.targetLba) (hsmall : r₁.targetLba < 2 ^ 32)
    (hbad : ¬ dev.validLba r₁.targetLba) (seq : ℕ) :
    ∃ dev', writeAll (commitWrites [r₀, r₁] seq false) dev = (.error .inval, dev') ∧
      (journalRecover dev').1 = .error .corrupt := by
  -- the writes go up to the first block, and stop at the second one
  have hsplit : commitWrites [r₀, r₁] seq false =
      (logWrites [r₀, r₁] seq ++ [(r₀.targetLba, r₀.payload)]) ++
        (r₁.targetLba, r₁.payload) :: [clearWrite] := by
    simp [commitWrites, homeWrites]
  have hwrites : ∀ w ∈ logWrites [r₀, r₁] seq ++ [(r₀.targetLba, r₀.payload)],
      dev.validLba w.1 := by
    intro w hw
    rcases List.mem_append.mp hw with hw | hw
    · exact logWrites_valid htotal (by simp) seq w hw
    · exact (List.mem_singleton.mp hw) ▸ hgood
  rw [hsplit, writeAll_of_invalid hfail hwrites hbad]
  refine ⟨_, rfl, ?_⟩
  have hcommitted : Committed (applyWrites (logWrites [r₀, r₁] seq ++ [(r₀.targetLba, r₀.payload)])
      dev.blocks) [r₀, r₁] := by
    rw [applyWrites_append]
    exact (replayable_logWrites (by simp) seq dev.blocks).committed.update (by simp) houtside _
  rw [← storeAll_blocks] at hcommitted
  have hkept := storeAll_totalBlocks dev (logWrites [r₀, r₁] seq ++ [(r₀.targetLba, r₀.payload)])
  refine recover_of_missing_target ?_ (hkept.symm ▸ htotal) hcommitted ?_ houtside hsmall ?_
  · rw [storeAll_failAfter_of_neg hfail]
    exact hfail
  · rwa [Dev.validLba, hkept]
  · rwa [Dev.validLba, hkept]

/-- The file gets a block behind the end of the device. -/
theorem Holds.write_behind (h : Holds dev files) (hvalid : Valid name data)
    (hnew : name ∉ files.map Prod.fst) (hroom : files.length < direntCount)
    (hblk : dev.totalBlocks ≤ dataStartLba + files.length) :
    ∃ dev', writeFile name data dev = (.error .inval, dev') ∧ (mount dev').1 = .error .corrupt := by
  have hplan : plan (fsState dev.blocks) name data =
      .ok ⟨files.length + 1, dataStartLba + files.length, files.length⟩ := by
    rw [h.stored.plan_eq hvalid, if_neg hnew, if_neg (Nat.ne_of_lt hroom)]
  have hsound := h.sound
  rw [writeFile, writeFileEx_eq hsound, hplan]
  generalize hp : (⟨files.length + 1, dataStartLba + files.length, files.length⟩ : Plan) = p
  obtain ⟨dev₁, hfirst, htotal, hcounter, -⟩ :=
    commit_metaTx hsound h.counter p data.length ((dev.blocks 0).u32 52 + 1)
  dsimp only
  rw [Act.bind_of_ok hfirst, journalCommit_eq (by simp)]
  generalize htx : fileTx (fsState dev.blocks) p name data = tx
  obtain ⟨r₀, r₁, rfl, hr₀, hr₁⟩ : ∃ r₀ r₁, tx = [r₀, r₁] ∧ r₀.targetLba = rootDirLba ∧
      r₁.targetLba = dataStartLba + files.length := by
    subst hp htx
    exact ⟨_, _, rfl, rfl, rfl⟩
  have hgood : dev₁.validLba r₀.targetLba :=
    hr₀ ▸ validLba_of_le (htotal.symm ▸ hsound.total_low) le_rfl
  have houtside : ¬ inJournal r₀.targetLba := by
    rw [hr₀]
    simp [inJournal]
  have hsmall : r₁.targetLba < 2 ^ 32 := by
    rw [hr₁]
    simp only [direntCount, dataStartLba] at hroom ⊢
    omega
  have hbad : ¬ dev₁.validLba r₁.targetLba := by
    rintro ⟨hlt, -⟩
    omega
  obtain ⟨dev', hstop, hcorrupt⟩ :=
    commit_missing_target hcounter (htotal.symm ▸ h.journal) hgood houtside hsmall hbad _
  refine ⟨dev', hstop, ?_⟩
  rw [mount, Act.bind_of_error (Prod.ext hcorrupt rfl)]

/-! ## Runs -/

/-- A device that holds these files and has no other inode in use. -/
structure Orderly (dev : Dev) (files : List File) : Prop where
  holds : Holds dev files
  unused : ∀ ino < maxInodes, files.length < ino → inodeDirect0 (fsState dev.blocks).inodes ino = 0

theorem Orderly.mountable (h : Orderly dev files) : Mountable dev where
  mount := by
    rw [mount_eq h.holds.sound]
    rfl
  fsck := congrArg Prod.fst (fsck_eq h.holds.sound)
  inside := by
    intro ino hino
    have htotal := h.holds.total_low
    simp only [dataStartLba] at htotal
    rcases Nat.eq_zero_or_pos ino with rfl | hpos
    · rw [h.holds.fs.root_direct0]
      simp only [rootDirLba]
      omega
    · rcases Nat.lt_or_ge files.length ino with hfree | htaken
      · rw [h.unused ino hino hfree]
        omega
      · obtain ⟨i, rfl⟩ : ∃ i, ino = i + 1 := ⟨ino - 1, by omega⟩
        have hat := h.holds.stored.file i _ (List.getElem?_eq_getElem htaken)
        rw [hat.direct0]
        simp only [dataStartLba]
        omega

theorem Orderly.write_ok (h : Orderly dev files) (hvalid : Valid name data)
    (hnew : name ∉ files.map Prod.fst) (hroom : files.length < direntCount)
    (hblk : dataStartLba + files.length < dev.totalBlocks) :
    ∃ dev', writeFile name data dev = (.ok (), dev') ∧ Orderly dev' (files ++ [(name, data)]) ∧
      dev'.totalBlocks = dev.totalBlocks := by
  obtain ⟨dev', hcall, hholds, htotal, hinodes⟩ := h.holds.write_ok hvalid hnew hroom hblk
  refine ⟨dev', hcall, ⟨hholds, fun ino hino hlt => ?_⟩, htotal⟩
  rw [List.length_append, List.length_singleton] at hlt
  rw [hinodes, inodeDirect0_setInode_of_ne (by omega)]
  exact h.unused ino hino (by omega)

theorem Stored.creates_iff {f : File} (h : Stored (fsState dev.blocks) files) :
    Creates f dev ↔ Valid f.1 f.2 ∧ f.1 ∉ files.map Prod.fst := by
  refine and_congr_right fun _ => ⟨fun hnone hmem => ?_, h.findDirent_of_notMem⟩
  obtain ⟨g, hg, hname⟩ := List.mem_map.mp hmem
  obtain ⟨i, -, hfind⟩ := h.findDirent_of_mem hg
  rw [← hname, hfind] at hnone
  cases hnone

theorem Stored.entries_used_iff (h : Stored (fsState dev.blocks) files) :
    (∀ i < direntCount, direntUsed (fsState dev.blocks).dir i ≠ 0) ↔
      files.length = direntCount := by
  constructor
  · intro hall
    have hlast := (h.used 11 (by decide)).mp (hall 11 (by decide))
    have hcount := h.count
    simp only [direntCount] at hcount ⊢
    omega
  · intro hfull i hi
    exact (h.used i hi).mpr (hfull ▸ hi)

/-- There is a free data block exactly if the next one is inside of the device. -/
theorem Holds.free_block_iff (h : Holds dev files) :
    (∃ b, dataStartLba ≤ b ∧ b < dev.totalBlocks ∧ bitmapGet (fsState dev.blocks).bb b = false) ↔
      dataStartLba + files.length < dev.totalBlocks := by
  constructor
  · rintro ⟨b, -, hb, hfree⟩
    rw [h.stored.bb b (hb.trans_le h.total_high), decide_eq_false_iff_not] at hfree
    omega
  · intro hlt
    refine ⟨dataStartLba + files.length, Nat.le_add_right _ _, hlt, ?_⟩
    rw [h.stored.bb _ (hlt.trans_le h.total_high)]
    exact decide_eq_false (Nat.lt_irrefl _)

theorem Holds.fits_iff (h : Holds dev files) (f : File) :
    FitsDevice f dev ↔ (Valid f.1 f.2 → f.1 ∉ files.map Prod.fst →
      dataStartLba + files.length < dev.totalBlocks ∨ files.length = direntCount) := by
  unfold FitsDevice
  rw [h.stored.creates_iff, h.free_block_iff, h.stored.entries_used_iff]
  exact and_imp

/-- A call that fits the device. -/
theorem Orderly.step (h : Orderly dev files) {f : File} (hfits : FitsDevice f dev) :
    (∃ files, Orderly (writeStep f dev) files) ∧
      (writeStep f dev).totalBlocks = dev.totalBlocks := by
  have hsame : ∀ {e : Err}, writeFile f.1 f.2 dev = (.error e, dev) →
      (∃ files, Orderly (writeStep f dev) files) ∧
        (writeStep f dev).totalBlocks = dev.totalBlocks := by
    intro e hcall
    rw [writeStep, hcall]
    exact ⟨⟨files, h⟩, rfl⟩
  by_cases hvalid : Valid f.1 f.2
  · have hplan := h.holds.stored.plan_eq hvalid
    by_cases hmem : f.1 ∈ files.map Prod.fst
    · rw [if_pos hmem] at hplan
      exact hsame (h.holds.write_error hplan)
    · by_cases hfull : files.length = direntCount
      · rw [if_neg hmem, if_pos hfull] at hplan
        exact hsame (h.holds.write_error hplan)
      · have hblk := ((h.holds.fits_iff f).mp hfits hvalid hmem).resolve_right hfull
        obtain ⟨dev', hcall, horderly, htotal⟩ :=
          h.write_ok hvalid hmem (Nat.lt_of_le_of_ne h.holds.stored.count hfull) hblk
        rw [writeStep, hcall]
        exact ⟨⟨_, horderly⟩, htotal⟩
  · rcases plan_of_not_valid hvalid with hplan | hplan
    · exact hsame (h.holds.write_error hplan)
    · exact hsame (h.holds.write_error hplan)

/-- A call that does not fit makes the device unmountable. -/
theorem Orderly.fits_of_mountable (h : Orderly dev files) {f : File}
    (hmount : Mountable (writeStep f dev)) : FitsDevice f dev := by
  rw [h.holds.fits_iff]
  intro hvalid hnew
  by_contra hnot
  obtain ⟨hblk, hfull⟩ := not_or.mp hnot
  obtain ⟨dev', hcall, hcorrupt⟩ := h.holds.write_behind hvalid hnew
    (Nat.lt_of_le_of_ne h.holds.stored.count hfull) (Nat.not_lt.mp hblk)
  have hok := hmount.mount
  rw [writeStep, hcall, hcorrupt] at hok
  cases hok

/-- A full device refuses every file that fits. -/
theorem Orderly.refusesFull (h : Orderly dev files) {f : File} (hfits : FitsDevice f dev) :
    RefusesFull f dev := by
  intro hcreates hfull
  obtain ⟨hvalid, hnew⟩ := h.holds.stored.creates_iff.mp hcreates
  have hlast : files.length = direntCount := by
    rcases hfull with hblocks | hinodes | hentries
    · refine ((h.holds.fits_iff f).mp hfits hvalid hnew).resolve_left fun hblk => ?_
      obtain ⟨b, hlow, hb, hfree⟩ := h.holds.free_block_iff.mpr hblk
      rw [hblocks b hlow hb] at hfree
      cases hfree
    · have hmarked := hinodes 15 (by decide)
      have hcount := h.holds.stored.count
      rw [h.holds.stored.ib 15 (by decide), decide_eq_true_eq] at hmarked
      simp only [direntCount] at hcount
      omega
    · exact h.holds.stored.entries_used_iff.mp hentries
  have hplan := h.holds.stored.plan_eq hvalid
  rw [if_neg hnew, if_pos hlast] at hplan
  exact h.holds.write_error hplan

theorem orderly_format (hfail : dev.failAfter < 0) (hlow : dataStartLba ≤ dev.totalBlocks)
    (hhigh : dev.totalBlocks ≤ maxBlocks) : Orderly (format dev).2 [] := by
  obtain ⟨-, -, -, -, hstate⟩ := format_spec hfail hlow
  refine ⟨holds_format hfail hlow hhigh, fun ino _ hpos => ?_⟩
  have hinodes : (fsState (format dev).2.blocks).inodes = setInode zero 0 1 2 0 rootDirLba :=
    congrArg FsState.inodes hstate
  have hne : ino ≠ 0 := Nat.ne_of_gt hpos
  rw [hinodes, inodeDirect0_setInode_of_ne hne]
  exact u32_zero _

/-- A device with 37 blocks has a block for every directory entry. -/
theorem Holds.fits (h : Holds dev files) (hroom : 37 ≤ dev.totalBlocks) (f : File) :
    FitsDevice f dev := by
  rw [h.fits_iff]
  intro _ _
  have hcount := h.stored.count
  simp only [direntCount, dataStartLba] at hcount ⊢
  omega

/-- The files `a`, `aa`, `aaa` and so on, all of them empty. -/
def fileNumber (i : ℕ) : File := (⟨List.replicate (i + 1) 97, by simp⟩, [])

theorem fileNumber_valid {m : ℕ} (hm : m < direntCount) :
    Valid (fileNumber m).1 (fileNumber m).2 := by
  refine ⟨?_, ?_, Nat.zero_le _⟩
  · simp [fileNumber, CStr.length]
  · simp only [fileNumber, CStr.length, List.length_replicate, maxName, direntCount] at hm ⊢
    omega

/-- Their names have different lengths. -/
theorem fileNumber_new (m : ℕ) :
    (fileNumber m).1 ∉ ((List.range m).map fileNumber).map Prod.fst := by
  rw [List.map_map, List.mem_map]
  rintro ⟨i, hi, heq⟩
  have hlen := congrArg CStr.length heq
  simp only [fileNumber, Function.comp_apply, CStr.length, List.length_replicate] at hlen
  have := List.mem_range.mp hi
  omega

/-- The first `m` of them fit a device with as many data blocks. -/
theorem orderly_numbered (h : Orderly dev []) {m : ℕ} (hm : m ≤ direntCount)
    (hblk : dataStartLba + m ≤ dev.totalBlocks) :
    Orderly (((List.range m).map fileNumber).foldl (fun d f => writeStep f d) dev)
        ((List.range m).map fileNumber) ∧
      (((List.range m).map fileNumber).foldl (fun d f => writeStep f d) dev).totalBlocks =
        dev.totalBlocks := by
  induction m with
  | zero => exact ⟨h, rfl⟩
  | succ m ih =>
    obtain ⟨hnow, htotal⟩ := ih (by omega) (by omega)
    rw [List.range_succ, List.map_append, List.map_singleton, List.foldl_append]
    generalize ((List.range m).map fileNumber).foldl (fun d f => writeStep f d) dev = now at *
    have hlen : ((List.range m).map fileNumber).length = m := by simp
    obtain ⟨dev', hcall, horderly, hkept⟩ := hnow.write_ok (fileNumber_valid hm) (fileNumber_new m)
      (hlen.symm ▸ hm) (by rw [hlen, htotal]; exact hblk)
    have hstep : [fileNumber m].foldl (fun d f => writeStep f d) now = dev' :=
      congrArg Prod.snd hcall
    rw [hstep]
    exact ⟨horderly, hkept.trans htotal⟩

/-- **Devices of any size.**  On a formatted device of 25 to 128 blocks, in every run of
`m16_write_file`: the device can be mounted and checked after every call, and a full device refuses
new files, exactly if no call creates a file when all the blocks are taken and a directory entry
is free.  There is no such run exactly if the device has 37 blocks or more. -/
theorem writes_keep_mountable_iff (dev dev₀ : Dev) (hlow : dataStartLba ≤ dev.totalBlocks)
    (hhigh : dev.totalBlocks ≤ maxBlocks) (hfail : dev.failAfter < 0)
    (hformat : format dev = (.ok (), dev₀)) :
    (∀ calls,
      (AllStates writeStep Mountable calls dev₀ ∧ AllSteps writeStep RefusesFull calls dev₀) ↔
      AllSteps writeStep FitsDevice calls dev₀) ∧
    ((∀ calls, AllStates writeStep Mountable calls dev₀ ∧
      AllSteps writeStep RefusesFull calls dev₀) ↔ 37 ≤ dev.totalBlocks) := by
  have hstart : Orderly dev₀ [] := by
    have := orderly_format hfail hlow hhigh
    rwa [hformat] at this
  have htotal : dev₀.totalBlocks = dev.totalBlocks := by
    have := (format_spec hfail hlow).2.1
    rwa [hformat] at this
  have hexact : ∀ calls, (AllStates writeStep Mountable calls dev₀ ∧
      AllSteps writeStep RefusesFull calls dev₀) ↔ AllSteps writeStep FitsDevice calls dev₀ := by
    intro calls
    have hkeep : ∀ f d, (∃ files, Orderly d files) → FitsDevice f d →
        ∃ files, Orderly (writeStep f d) files := fun f d h hf => h.elim fun _ hd => (hd.step hf).1
    have hiff : AllStates writeStep Mountable calls dev₀ ↔
        AllSteps writeStep FitsDevice calls dev₀ :=
      AllStates.iff_allSteps (fun d h => h.elim fun _ hd => hd.mountable) hkeep
        (fun f d h hm => h.elim fun _ hd => hd.fits_of_mountable hm) ⟨[], hstart⟩
    refine ⟨fun h => hiff.mp h.1, fun h => ⟨hiff.mpr h, ?_⟩⟩
    exact h.imp hkeep (fun f d hd hf => hd.elim fun _ hd => hd.refusesFull hf) ⟨[], hstart⟩
  refine ⟨hexact, fun hall => ?_, fun hroom calls => (hexact calls).mpr ?_⟩
  · -- a smaller device is filled, and one more file is written
    by_contra hsmall
    obtain ⟨m, hm⟩ : ∃ m, dev.totalBlocks = dataStartLba + m := ⟨_, (Nat.add_sub_cancel' hlow).symm⟩
    have hlt : m < direntCount := by
      simp only [dataStartLba, direntCount] at hm ⊢
      omega
    obtain ⟨hfull, hkept⟩ := orderly_numbered hstart hlt.le (htotal.trans hm).ge
    have hlast := (hall ((List.range (m + 1)).map fileNumber)).1.last
    rw [List.range_succ, List.map_append, List.map_singleton, List.foldl_append] at hlast
    have hfits := (hfull.holds.fits_iff _).mp (hfull.fits_of_mountable hlast) (fileNumber_valid hlt)
      (fileNumber_new m)
    rw [hkept, htotal, hm, List.length_map, List.length_range] at hfits
    omega
  · refine AllSteps.of_step (I := fun d => (∃ files, Orderly d files) ∧ 37 ≤ d.totalBlocks) ?_ ?_
      ⟨⟨[], hstart⟩, htotal.symm ▸ hroom⟩
    · intro f d h
      obtain ⟨⟨files, hd⟩, hlarge⟩ := h
      obtain ⟨hnext, hkept⟩ := hd.step (hd.holds.fits hlarge f)
      exact ⟨hnext, hkept.symm ▸ hlarge⟩
    · intro f d h
      obtain ⟨⟨files, hd⟩, hlarge⟩ := h
      exact hd.holds.fits hlarge f

/-- A device of the full size can be written to without end. -/
theorem writes_keep_mountable_iff_largest :
    37 ≤ devInit.totalBlocks ∧
      ∀ calls, AllStates writeStep Mountable calls (format devInit).2 ∧
        AllSteps writeStep RefusesFull calls (format devInit).2 := by
  have hformat : format devInit = (.ok (), (format devInit).2) :=
    Prod.ext (format_spec (by decide : devInit.failAfter < 0) (by decide)).1 rfl
  have hlarge : 37 ≤ devInit.totalBlocks := by decide
  exact ⟨hlarge,
    (writes_keep_mountable_iff devInit _ (by decide) (by decide) (by decide) hformat).2.mpr hlarge⟩

/-- A device of 25 blocks, which has no data block. -/
def smallest : Dev := { devInit with totalBlocks := 25 }

/-- Its first file makes it unmountable. -/
theorem writeFile_unmountable :
    (format smallest).1 = .ok () ∧ dataStartLba ≤ smallest.totalBlocks ∧
    (writeFile ⟨[97], by decide⟩ [] (format smallest).2).1 = .error .inval ∧
    (mount (writeFile ⟨[97], by decide⟩ [] (format smallest).2).2).1 = .error .corrupt ∧
    ¬ AllStates writeStep Mountable [(⟨[97], by decide⟩, [])] (format smallest).2 := by
  have hfail : smallest.failAfter < 0 := by decide
  have hlow : dataStartLba ≤ smallest.totalBlocks := by decide
  obtain ⟨hok, htotal, -⟩ := format_spec hfail hlow
  have hholds := holds_format hfail hlow (by decide : smallest.totalBlocks ≤ maxBlocks)
  have hvalid : Valid ⟨[97], by decide⟩ [] := by decide
  obtain ⟨dev', hcall, hcorrupt⟩ := hholds.write_behind hvalid List.not_mem_nil (by decide)
    (htotal.le : _ ≤ 25)
  refine ⟨hok, hlow, by rw [hcall], by rw [hcall]; exact hcorrupt, fun h => ?_⟩
  have hmount := h.last.mount
  simp only [List.foldl_cons, List.foldl_nil, writeStep, hcall, hcorrupt] at hmount
  cases hmount

end Mcsos.M16
