import Mcsos.M16.FileWrite

/-!
# File creation under crashes

A call of `m16_write_file` on a device at rest either returns an error before it writes anything
or commits its two transactions one after the other.  Cut off after `k` writes it leaves a device
that the next mount brings to one of three states (`writeFile_recoversTo`):

```text
k < 14          nothing happened
14 ≤ k < 27     inode and block are reserved, but no entry refers to them
27 ≤ k          the file is there
```

Writes 1 to 21 belong to the first transaction, with its header as write 14; writes 22 to 30 belong
to the second one, with its header as write 27.
-/

namespace Mcsos.M16

open Bytes

/-- The inode, the block and the directory slot that a creation takes. -/
structure Plan where
  ino : ℕ
  blk : ℕ
  slot : ℕ

/-- The checks and searches of `m16_write_file_ex` before its first transaction. -/
def plan (s : FsState) (name : CStr) (data : List UInt8) : Except Err Plan :=
  if strlenBounded name.char maxName = 0 ∨ maxName ≤ strlenBounded name.char maxName then
    .error .toolong
  else if blockSize < data.length then .error .inval
  else if (findDirent s.dir name).isOk = true then .error .exists
  else
    match findFreeInode s.ib, findFreeBlock s.bb, findFreeDirent s.dir with
    | .ok ino, .ok blk, .ok slot => .ok ⟨ino, blk, slot⟩
    | .error e, _, _ => .error e
    | .ok _, .error e, _ => .error e
    | .ok _, .ok _, .error e => .error e

/-- The records of the first transaction. -/
def metaTx (s : FsState) (p : Plan) (size : ℕ) : Tx :=
  let t := setInode s.inodes p.ino 1 1 size p.blk
  [⟨inodeBitmapLba, bitmapSet s.ib p.ino⟩, ⟨blockBitmapLba, bitmapSet s.bb p.blk⟩,
    ⟨inodeTableLba, tableBlock t 0⟩, ⟨inodeTableLba + 1, tableBlock t 1⟩,
    ⟨inodeTableLba + 2, tableBlock t 2⟩, ⟨inodeTableLba + 3, tableBlock t 3⟩]

/-- The records of the second transaction. -/
def fileTx (s : FsState) (p : Plan) (name : CStr) (data : List UInt8) : Tx :=
  [⟨rootDirLba, setDirent s.dir p.slot p.ino name name.length⟩, ⟨p.blk, dataBlockOf data⟩]

/-- What is known of a plan that was made. -/
structure PlanOk (s : FsState) (name : CStr) (data : List UInt8) (p : Plan) : Prop where
  name_pos : 0 < name.length
  name_lt : name.length < maxName
  fits : data.length ≤ blockSize
  new : findDirent s.dir name = .error .noent
  free : Free s p.ino p.blk
  slot_lt : p.slot < direntCount
  slot_unused : direntUsed s.dir p.slot = 0

theorem strlenBounded_lt {name : CStr} (h : strlenBounded name.char maxName < maxName) :
    strlenBounded name.char maxName = name.length ∧ name.length < maxName := by
  unfold strlenBounded at *
  rw [scanLen_char] at *
  omega

theorem findDirent_error {dir : Block} {name : CStr} (h : ¬ (findDirent dir name).isOk = true) :
    findDirent dir name = .error .noent := by
  unfold findDirent at *
  split
  case h_1 i hi => simp [hi, Except.isOk, Except.toBool] at h
  case h_2 => rfl

theorem plan_ok {s : FsState} {name : CStr} {data : List UInt8} {p : Plan}
    (h : plan s name data = .ok p) : PlanOk s name data p := by
  unfold plan at h
  split at h
  · cases h
  rename_i hlen
  split at h
  · cases h
  rename_i hfits
  split at h
  · cases h
  rename_i hnew
  obtain ⟨hpos, hlt⟩ := not_or.mp hlen
  have hname := strlenBounded_lt (Nat.lt_of_not_le hlt)
  split at h
  case h_1 ino blk slot hino hblk hslot =>
      cases h
      obtain ⟨hino1, hino2, hino3⟩ := findFreeInode_ok hino
      obtain ⟨hblk1, hblk2, hblk3⟩ := findFreeBlock_ok hblk
      obtain ⟨hslot1, hslot2⟩ := findFreeDirent_ok hslot
      exact ⟨by omega, hname.2, Nat.le_of_not_lt hfits, findDirent_error hnew,
        ⟨hino1, hino2, hino3, hblk1, hblk2, hblk3⟩, hslot1, hslot2⟩
  all_goals cases h

variable {dev : Dev} {name : CStr} {data : List UInt8}

/-- Writing a file is making a plan and committing its two transactions. -/
theorem writeFileEx_eq (h : Sound dev) (name : CStr) (data : List UInt8) (stop : Bool) :
    writeFileEx name data stop dev =
      match plan (fsState dev.blocks) name data with
      | .error e => (.error e, dev)
      | .ok p =>
          (do
            journalCommit (metaTx (fsState dev.blocks) p data.length) ((dev.blocks 0).u32 52 + 1)
              false
            journalCommit (fileTx (fsState dev.blocks) p name data) ((dev.blocks 0).u32 52 + 2)
              stop : DevM Unit) dev := by
  unfold writeFileEx plan
  by_cases hlen : strlenBounded name.char maxName = 0 ∨ maxName ≤ strlenBounded name.char maxName
  · rw [if_pos hlen, Act.failIf_bind_of_pos hlen]
  rw [if_neg hlen, Act.failIf_bind_of_not hlen]
  by_cases hfits : blockSize < data.length
  · rw [if_pos hfits, Act.failIf_bind_of_pos hfits]
  rw [if_neg hfits, Act.failIf_bind_of_not hfits, read_metadata h]
  have hsuper : (fsState dev.blocks).super = dev.blocks 0 := rfl
  rw [hsuper]
  generalize fsState dev.blocks = s
  by_cases hnew : (findDirent s.dir name).isOk = true
  · rw [if_pos hnew, Act.failIf_bind_of_pos hnew]
  rw [if_neg hnew, Act.failIf_bind_of_not hnew]
  -- the checks are done; what is left are the three searches of the plan
  have hname := (strlenBounded_lt (Nat.lt_of_not_le (not_or.mp hlen).2)).1
  cases findFreeInode s.ib with
  | error e => rfl
  | ok ino =>
      cases findFreeBlock s.bb with
      | error e => rfl
      | ok blk =>
          cases findFreeDirent s.dir with
          | error e => rfl
          | ok slot => rw [hname]; rfl

/-! ## The two transactions -/

theorem txOk_of_targets {tx : Tx} (hcount : tx.length ≤ journalMaxRecords)
    (htargets : ∀ r ∈ tx, inodeBitmapLba ≤ r.targetLba ∧ dev.validLba r.targetLba) :
    TxOk dev tx := by
  refine ⟨hcount, fun r hr => (htargets r hr).2, fun r hr hin => ?_⟩
  have := (htargets r hr).1
  simp only [inJournal, journalStart, journalBlocks, inodeBitmapLba] at hin this
  omega

/-- The blocks of the metadata are there. -/
theorem validLba_of_le {lba : ℕ} (htotal : rootDirLba < dev.totalBlocks) (hlba : lba ≤ rootDirLba) :
    dev.validLba lba :=
  ⟨hlba.trans_lt htotal, hlba.trans_lt (by decide)⟩

theorem rootDirLba_lt (htotal : dev.totalBlocks = maxBlocks) : rootDirLba < dev.totalBlocks := by
  rw [htotal]
  decide

variable {s : FsState} {p : Plan} {size : ℕ}

@[simp] theorem length_metaTx (s : FsState) (p : Plan) (size : ℕ) :
    (metaTx s p size).length = 6 := rfl

@[simp] theorem length_fileTx (s : FsState) (p : Plan) (name : CStr) (data : List UInt8) :
    (fileTx s p name data).length = 2 := rfl

theorem metaTx_ok (htotal : rootDirLba < dev.totalBlocks) (s : FsState) (p : Plan) (size : ℕ) :
    TxOk dev (metaTx s p size) := by
  apply txOk_of_targets (by simp)
  intro r hr
  simp only [metaTx, List.mem_cons, List.not_mem_nil, or_false] at hr
  rcases hr with rfl | rfl | rfl | rfl | rfl | rfl <;>
    exact ⟨by simp, validLba_of_le htotal (by simp)⟩

theorem fileTx_ok (htotal : rootDirLba < dev.totalBlocks) (hblk : p.blk < dev.totalBlocks)
    (hplan : PlanOk s name data p) : TxOk dev (fileTx s p name data) := by
  apply txOk_of_targets (by simp)
  intro r hr
  simp only [fileTx, List.mem_cons, List.not_mem_nil, or_false] at hr
  rcases hr with rfl | rfl
  · exact ⟨by simp, validLba_of_le htotal (by simp)⟩
  · exact ⟨(by decide : 18 ≤ 25).trans hplan.free.blk_low, hblk, hplan.free.blk_high⟩

/-- Writing the first transaction home reserves the inode and the block. -/
theorem fsState_metaTx (b : ℕ → Block) (p : Plan) (size : ℕ) :
    fsState (applyWrites (homeWrites (metaTx (fsState b) p size)) b) =
      (fsState b).reserve p.ino p.blk size := by
  have hother : ∀ lba, lba < 18 ∨ 24 ≤ lba →
      applyWrites (homeWrites (metaTx (fsState b) p size)) b lba = b lba := by
    intro lba hlba
    apply applyWrites_of_ne
    intro w hw
    simp only [homeWrites, metaTx, List.map_cons, List.map_nil, List.mem_cons, List.not_mem_nil,
      or_false, inodeBitmapLba, blockBitmapLba, inodeTableLba] at hw
    rcases hw with rfl | rfl | rfl | rfl | rfl | rfl <;> dsimp only <;> omega
  have htable : inodeTable (applyWrites (homeWrites (metaTx (fsState b) p size)) b) =
      setInode (fsState b).inodes p.ino 1 1 size p.blk := by
    apply inodeTable_eq_of_blocks
    intro i hi
    interval_cases i <;> simp [homeWrites, metaTx, applyWrites]
  have hdata : (fun i => applyWrites (homeWrites (metaTx (fsState b) p size)) b (25 + i)) =
      fun i => b (25 + i) := funext fun i => hother _ (by omega)
  have hib : applyWrites (homeWrites (metaTx (fsState b) p size)) b 18 =
      bitmapSet (fsState b).ib p.ino := by
    simp [homeWrites, metaTx, applyWrites]
  have hbb : applyWrites (homeWrites (metaTx (fsState b) p size)) b 19 =
      bitmapSet (fsState b).bb p.blk := by
    simp [homeWrites, metaTx, applyWrites]
  rw [fsState, htable, hother 0 (by decide), hother 24 (by decide), hib, hbb, hdata]
  rfl

/-- Writing the second transaction home links the file. -/
theorem fsState_fileTx {b : ℕ → Block} (hblk : dataStartLba ≤ p.blk) (hdir : b rootDirLba = s.dir) :
    fsState (applyWrites (homeWrites (fileTx s p name data)) b) =
      (fsState b).link p.slot p.ino p.blk name data := by
  simp only [dataStartLba] at hblk
  have hother : ∀ lba, lba < 24 →
      applyWrites (homeWrites (fileTx s p name data)) b lba = b lba := by
    intro lba hlba
    apply applyWrites_of_ne
    intro w hw
    simp only [homeWrites, fileTx, List.map_cons, List.map_nil, List.mem_cons, List.not_mem_nil,
      or_false, rootDirLba] at hw
    rcases hw with rfl | rfl <;> dsimp only <;> omega
  have htable : inodeTable (applyWrites (homeWrites (fileTx s p name data)) b) = inodeTable b :=
    inodeTable_congr fun i hi => hother _ (by simp only [inodeTableLba]; omega)
  have hroot : applyWrites (homeWrites (fileTx s p name data)) b 24 =
      setDirent (b 24) p.slot p.ino name name.length := by
    simp only [homeWrites, fileTx, applyWrites, List.map_cons, List.map_nil]
    rw [Function.update_of_ne (by omega), Function.update_self, ← hdir]
  have hdata : (fun i => applyWrites (homeWrites (fileTx s p name data)) b (25 + i)) =
      Function.update (fun i => b (25 + i)) (p.blk - 25) (dataBlockOf data) := by
    funext i
    simp only [homeWrites, fileTx, applyWrites, List.map_cons, List.map_nil, rootDirLba]
    by_cases hi : i = p.blk - 25
    · subst hi
      rw [Nat.add_sub_cancel' hblk, Function.update_self, Function.update_self]
    · rw [Function.update_of_ne (by omega), Function.update_of_ne (by omega),
        Function.update_of_ne hi]
  rw [fsState, htable, hother 0 (by decide), hother 18 (by decide), hother 19 (by decide), hroot,
    hdata]
  rfl

/-! ## A call that is cut off -/

/-- The state of the filesystem that a call cut off after `fail` writes comes to, once the device
is mounted again; a negative `fail` stands for a call that is not cut off. -/
def outcome (s : FsState) (name : CStr) (data : List UInt8) (fail : ℤ) : FsState :=
  match plan s name data with
  | .error _ => s
  | .ok p =>
      if fail < 0 ∨ 27 ≤ fail then
        (s.reserve p.ino p.blk data.length).link p.slot p.ino p.blk name data
      else if 14 ≤ fail then s.reserve p.ino p.blk data.length
      else s

/-- A device that recovery brings to rest in the state `s`. -/
def RecoversTo (dev : Dev) (s : FsState) : Prop :=
  dev.totalBlocks = maxBlocks ∧
    ∃ tx target, TxOk dev tx ∧ Restored dev.blocks tx target ∧ fsState target = s

theorem PlanOk.reserve_ok (h : FsOk s) (hplan : PlanOk s name data p) :
    FsOk (s.reserve p.ino p.blk data.length) := h.reserve hplan.free

theorem PlanOk.link_ok (h : FsOk s) (hplan : PlanOk s name data p) :
    FsOk ((s.reserve p.ino p.blk data.length).link p.slot p.ino p.blk name data) :=
  (hplan.reserve_ok h).link hplan.slot_lt hplan.name_lt (inodeOk_reserve hplan.free hplan.fits)

theorem outcome_ok (h : FsOk s) (name : CStr) (data : List UInt8) (fail : ℤ) :
    FsOk (outcome s name data fail) := by
  unfold outcome
  split
  case h_1 => exact h
  case h_2 p hp =>
      have hplan := plan_ok hp
      split_ifs
      · exact hplan.link_ok h
      · exact hplan.reserve_ok h
      · exact h

theorem RecoversTo.of_settled {target : ℕ → Block} (htotal : dev.totalBlocks = maxBlocks)
    (h : Settled dev.blocks target) : RecoversTo dev (fsState target) :=
  ⟨htotal, [], target, ⟨Nat.zero_le _, by simp, by simp⟩, Or.inl h, rfl⟩

theorem RecoversTo.withFailAfter (h : RecoversTo dev s) (fail : ℤ) :
    RecoversTo (dev.withFailAfter fail) s := by
  obtain ⟨htotal, tx, target, hok, hrestored, hstate⟩ := h
  exact ⟨htotal, tx, target, hok.of_totalBlocks rfl, hrestored, hstate⟩

/-- Recovery, cut off or not, keeps to its goal; if it reports success it has reached it. -/
theorem RecoversTo.recover (h : RecoversTo dev s) (hs : FsOk s) :
    RecoversTo (journalRecover dev).2 s ∧
      ((journalRecover dev).1 = .ok () →
        AtRest (journalRecover dev).2 ∧ fsState (journalRecover dev).2.blocks = s) ∧
      (dev.failAfter < 0 → (journalRecover dev).1 = .ok ()) := by
  obtain ⟨htotal, tx, target, hok, hrestored, rfl⟩ := h
  have hjournal : 18 ≤ dev.totalBlocks := by
    rw [htotal]
    decide
  obtain ⟨hrestored', hkept⟩ := recover_restored hjournal hok hrestored
  refine ⟨⟨hkept.trans htotal, tx, target, hok.of_totalBlocks hkept, hrestored', rfl⟩, ?_, ?_⟩
  · intro hresult
    have hsettled := settled_of_recover hjournal hok hrestored hresult
    have hstate : fsState (journalRecover dev).2.blocks = fsState target :=
      fsState_congr hsettled.home
    exact ⟨⟨hkept.trans htotal, hsettled.header, hstate ▸ hs⟩, hstate⟩
  · intro hfail
    exact (recover_settles hjournal hok hfail hrestored).1

/-- Mounting with writes enabled completes the recovery. -/
theorem RecoversTo.mount (h : RecoversTo dev s) (hs : FsOk s) :
    (M16.mount (dev.withFailAfter (-1))).1.isOk = true ∧
      AtRest (M16.mount (dev.withFailAfter (-1))).2 ∧
      fsState (M16.mount (dev.withFailAfter (-1))).2.blocks = s := by
  obtain ⟨-, hdone, hok⟩ := (h.withFailAfter (-1)).recover hs
  have hresult := hok (by decide : (-1 : ℤ) < 0)
  obtain ⟨hrest, hstate⟩ := hdone hresult
  rw [mount_of_recover (Prod.ext hresult rfl) hrest.sound]
  exact ⟨rfl, hrest, hstate⟩

theorem AtRest.journal (h : AtRest dev) : 18 ≤ dev.totalBlocks := by
  rw [h.total]
  decide

/-- The first transaction of a plan is carried out in full. -/
def Dev.roomForMeta (dev : Dev) : Prop := dev.failAfter < 0 ∨ 21 ≤ dev.failAfter

/-- What is left of the counter after the first transaction decides about the second one. -/
theorem commits_storeAll (hroom : dev.roomForMeta) {ws : List (ℕ × Block)} (hws : ws.length = 21)
    (tx : Tx) (htx : tx.length = 2) :
    (dev.storeAll ws).commits tx ↔ dev.failAfter < 0 ∨ 27 ≤ dev.failAfter := by
  unfold Dev.commits
  rcases hroom with hneg | hmany
  · rw [storeAll_failAfter_of_neg hneg, htx]
    omega
  · rw [storeAll_failAfter_of_le (by omega), htx, hws]
    omega

/-- The call ends inside the first transaction. -/
theorem first_recoversTo (h : AtRest dev) (hroom : ¬ dev.roomForMeta) (p : Plan) (size seq : ℕ)
    (rest : DevM Unit) :
    ((journalCommit (metaTx (fsState dev.blocks) p size) seq false >>= fun _ => rest) dev).1 =
        .error .io ∧
      RecoversTo ((journalCommit (metaTx (fsState dev.blocks) p size) seq false >>=
          fun _ => rest) dev).2
        (if 14 ≤ dev.failAfter then (fsState dev.blocks).reserve p.ino p.blk size
          else fsState dev.blocks) := by
  have hmeta := metaTx_ok h.sound.total_low (fsState dev.blocks) p size
  have hlow : 0 ≤ dev.failAfter := by unfold Dev.roomForMeta at hroom; omega
  have hhigh : dev.failAfter < 21 := by unfold Dev.roomForMeta at hroom; omega
  have herror := journalCommit_error h.journal hmeta seq hlow (by simpa using hhigh)
  have htotal : (journalCommit (metaTx (fsState dev.blocks) p size) seq false dev).2.totalBlocks =
      maxBlocks := by
    rw [journalCommit_apply h.journal hmeta, storeAll_totalBlocks, h.total]
  rw [Act.bind_of_error (Prod.ext herror rfl)]
  refine ⟨rfl, ?_⟩
  by_cases hcommits : 14 ≤ dev.failAfter
  · have hdone : dev.commits (metaTx (fsState dev.blocks) p size) :=
      Or.inr (by simpa using hcommits)
    rw [if_pos hcommits, ← fsState_metaTx]
    exact ⟨htotal, _, _, metaTx_ok (rootDirLba_lt htotal) _ _ _,
      restored_of_committed h.journal hmeta hdone seq false, rfl⟩
  · have hnot : ¬ dev.commits (metaTx (fsState dev.blocks) p size) := by
      unfold Dev.commits
      rw [length_metaTx]
      omega
    rw [if_neg hcommits]
    exact RecoversTo.of_settled htotal
      (settled_of_uncommitted h.journal hmeta ⟨h.header, fun _ _ => rfl⟩ hnot seq false)

/-- The call gets to the second transaction. -/
theorem second_recoversTo (h : AtRest dev) (hroom : dev.roomForMeta)
    (hplan : PlanOk (fsState dev.blocks) name data p) (seq seq' : ℕ) :
    ∃ dev', journalCommit (metaTx (fsState dev.blocks) p data.length) seq false dev =
      (.ok (), dev') ∧
      ((journalCommit (fileTx (fsState dev.blocks) p name data) seq' false dev').1 = .ok () →
        dev.failAfter < 0 ∨ 27 ≤ dev.failAfter) ∧
      RecoversTo (journalCommit (fileTx (fsState dev.blocks) p name data) seq' false dev').2
        (if dev.failAfter < 0 ∨ 27 ≤ dev.failAfter then
          ((fsState dev.blocks).reserve p.ino p.blk data.length).link p.slot p.ino p.blk name data
          else (fsState dev.blocks).reserve p.ino p.blk data.length) := by
  have hmeta := metaTx_ok h.sound.total_low (fsState dev.blocks) p data.length
  obtain ⟨hfirst, hsettled⟩ := settled_of_room h.journal hmeta seq hroom
  refine ⟨_, hfirst, ?_⟩
  -- the device between the two transactions is at rest again, with inode and block reserved
  have hreserved : fsState (dev.storeAll (commitWrites (metaTx (fsState dev.blocks) p data.length)
      seq false)).blocks = (fsState dev.blocks).reserve p.ino p.blk data.length :=
    (fsState_congr hsettled.home).trans (fsState_metaTx dev.blocks p data.length)
  have htotal' : (dev.storeAll (commitWrites (metaTx (fsState dev.blocks) p data.length) seq
      false)).totalBlocks = maxBlocks := (storeAll_totalBlocks _ _).trans h.total
  have hcommits := commits_storeAll hroom
    (length_commitWrites (metaTx (fsState dev.blocks) p data.length) seq)
    (fileTx (fsState dev.blocks) p name data) rfl
  generalize dev.storeAll (commitWrites (metaTx (fsState dev.blocks) p data.length) seq false) =
    dev' at *
  have hjournal : 18 ≤ dev'.totalBlocks := by rw [htotal']; decide
  have hfile := fileTx_ok (rootDirLba_lt htotal') (htotal'.symm ▸ hplan.free.blk_high) hplan
  have htotal : (journalCommit (fileTx (fsState dev.blocks) p name data) seq' false
      dev').2.totalBlocks = maxBlocks := by
    rw [journalCommit_apply hjournal hfile, storeAll_totalBlocks, htotal']
  refine ⟨fun hok => hcommits.mp (commits_of_ok hjournal hfile hok), ?_⟩
  -- the second commit header is write 27: 21 writes of the first transaction and 6 of this one
  by_cases hdone : dev.failAfter < 0 ∨ 27 ≤ dev.failAfter
  · have hdir : dev'.blocks rootDirLba = (fsState dev.blocks).dir := congrArg FsState.dir hreserved
    rw [if_pos hdone, ← hreserved, ← fsState_fileTx hplan.free.blk_low hdir]
    exact ⟨htotal, _, _, hfile.of_totalBlocks (htotal.trans htotal'.symm),
      restored_of_committed hjournal hfile (hcommits.mpr hdone) seq' false, rfl⟩
  · rw [if_neg hdone, ← hreserved]
    exact RecoversTo.of_settled htotal
      (settled_of_uncommitted hjournal hfile ⟨hsettled.header, fun _ _ => rfl⟩
        (mt hcommits.mp hdone) seq' false)

/-- A call on a device at rest, cut off anywhere. -/
theorem writeFile_recoversTo (h : AtRest dev) (name : CStr) (data : List UInt8) :
    RecoversTo (writeFile name data dev).2
        (outcome (fsState dev.blocks) name data dev.failAfter) ∧
      ((writeFile name data dev).1 = .ok () →
        ∃ p, plan (fsState dev.blocks) name data = .ok p ∧
          (dev.failAfter < 0 ∨ 27 ≤ dev.failAfter)) := by
  rw [writeFile, writeFileEx_eq h.sound, outcome]
  cases hp : plan (fsState dev.blocks) name data with
  | error e =>
      exact ⟨RecoversTo.of_settled h.total ⟨h.header, fun _ _ => rfl⟩, fun hok => by cases hok⟩
  | ok p =>
      dsimp only
      generalize (dev.blocks 0).u32 52 + 1 = seq
      generalize (dev.blocks 0).u32 52 + 2 = seq'
      by_cases hroom : dev.roomForMeta
      · obtain ⟨dev', hfirst, hdone, hrecovers⟩ :=
          second_recoversTo h hroom (plan_ok hp) seq seq'
        have hreserved : ¬ (dev.failAfter < 0 ∨ 27 ≤ dev.failAfter) → 14 ≤ dev.failAfter := by
          unfold Dev.roomForMeta at hroom
          omega
        rw [Act.bind_of_ok hfirst]
        refine ⟨?_, fun hok => ⟨p, rfl, hdone hok⟩⟩
        split_ifs at hrecovers ⊢ with hall hmeta
        · exact hrecovers
        · exact hrecovers
        · exact absurd (hreserved hall) hmeta
      · obtain ⟨herror, hrecovers⟩ := first_recoversTo h hroom p data.length seq
          (journalCommit (fileTx (fsState dev.blocks) p name data) seq' false)
        have hcut : ¬ (dev.failAfter < 0 ∨ 27 ≤ dev.failAfter) := by
          unfold Dev.roomForMeta at hroom
          omega
        rw [if_neg hcut]
        exact ⟨hrecovers, fun hok => by rw [herror] at hok; cases hok⟩

/-- A call ends with its first checks, or it starts by mounting the device. -/
theorem writeFile_mounts (name : CStr) (data : List UInt8) :
    (∀ dev, (writeFile name data dev).2 = dev) ∨
      ∃ rest : Block → DevM Unit, writeFile name data = mount >>= rest := by
  unfold writeFile writeFileEx
  by_cases hlen : strlenBounded name.char maxName = 0 ∨ maxName ≤ strlenBounded name.char maxName
  · left
    intro dev
    rw [Act.failIf_bind_of_pos hlen]
  by_cases hfits : blockSize < data.length
  · left
    intro dev
    rw [Act.failIf_bind_of_not hlen, Act.failIf_bind_of_pos hfits]
  · right
    rw [Act.failIf_bind_of_not hlen, Act.failIf_bind_of_not hfits]
    exact ⟨_, rfl⟩

/-- A call on a device that is not yet recovered, cut off anywhere: it may end inside the recovery
it starts with, and goes on from a device at rest otherwise. -/
theorem RecoversTo.writeFile (h : RecoversTo dev s) (hs : FsOk s) (name : CStr)
    (data : List UInt8) : ∃ s', FsOk s' ∧ RecoversTo (M16.writeFile name data dev).2 s' := by
  obtain ⟨hkept, hdone, -⟩ := h.recover hs
  rcases writeFile_mounts name data with hsame | ⟨rest, hmount⟩
  · rw [hsame]
    exact ⟨s, hs, h⟩
  cases hrecover : journalRecover dev with
  | mk r dev' =>
      rw [hrecover] at hkept hdone
      cases r with
      | error e =>
          have hfailed : M16.mount dev = (.error e, dev') := by
            rw [M16.mount, Act.bind_of_error hrecover]
          rw [hmount, Act.bind_of_error hfailed]
          exact ⟨s, hs, hkept⟩
      | ok u =>
          obtain ⟨hrest, -⟩ := hdone rfl
          have hsame : M16.writeFile name data dev = M16.writeFile name data dev' := by
            rw [hmount, Act.bind_of_ok (mount_of_recover hrecover hrest.sound),
              Act.bind_of_ok (mount_eq hrest.sound)]
          rw [hsame]
          exact ⟨_, outcome_ok hrest.fs name data dev'.failAfter,
            (writeFile_recoversTo hrest name data).1⟩

/-- The first transaction of a call that is not cut off. -/
theorem commit_metaTx (h : Sound dev) (hfail : dev.failAfter < 0) (p : Plan) (size seq : ℕ) :
    ∃ dev', journalCommit (metaTx (fsState dev.blocks) p size) seq false dev = (.ok (), dev') ∧
      dev'.totalBlocks = dev.totalBlocks ∧ dev'.failAfter < 0 ∧
      fsState dev'.blocks = (fsState dev.blocks).reserve p.ino p.blk size := by
  have hjournal : 18 ≤ dev.totalBlocks := (by decide : 18 ≤ 24).trans h.total_low.le
  have hmeta := metaTx_ok h.total_low (fsState dev.blocks) p size
  obtain ⟨hcommit, hsettled⟩ := settled_of_room hjournal hmeta seq (Or.inl hfail)
  refine ⟨_, hcommit, storeAll_totalBlocks _ _, ?_, ?_⟩
  · rw [storeAll_failAfter_of_neg hfail]
    exact hfail
  · exact (fsState_congr hsettled.home).trans (fsState_metaTx dev.blocks p size)

/-- The two transactions of a call that is not cut off. -/
theorem writeFile_of_plan (h : Sound dev) (hfail : dev.failAfter < 0)
    (hp : plan (fsState dev.blocks) name data = .ok p) (hblk : p.blk < dev.totalBlocks) :
    ∃ dev', writeFile name data dev = (.ok (), dev') ∧ dev'.totalBlocks = dev.totalBlocks ∧
      dev'.failAfter < 0 ∧ dev'.blocks journalStart = zero ∧
      fsState dev'.blocks =
        ((fsState dev.blocks).reserve p.ino p.blk data.length).link p.slot p.ino p.blk
          name data := by
  have hplan := plan_ok hp
  have hfile := fileTx_ok h.total_low hblk hplan
  rw [writeFile, writeFileEx_eq h, hp]
  obtain ⟨dev₁, hfirst, htotal, hcounter, hreserved⟩ :=
    commit_metaTx h hfail p data.length ((dev.blocks 0).u32 52 + 1)
  have hjournal : 18 ≤ dev₁.totalBlocks := htotal.symm ▸ (by decide : 18 ≤ 24).trans h.total_low.le
  obtain ⟨hsecond, hsettled⟩ := settled_of_room hjournal (hfile.of_totalBlocks htotal)
    ((dev.blocks 0).u32 52 + 2) (Or.inl hcounter)
  have hdir : dev₁.blocks rootDirLba = (fsState dev.blocks).dir := congrArg FsState.dir hreserved
  dsimp only
  rw [Act.bind_of_ok hfirst]
  refine ⟨_, hsecond, (storeAll_totalBlocks _ _).trans htotal, ?_, hsettled.header, ?_⟩
  · rw [storeAll_failAfter_of_neg hcounter]
    exact hcounter
  · rw [fsState_congr hsettled.home, fsState_fileTx hplan.free.blk_low hdir, hreserved]

/-- A call that is not cut off leaves the device at rest. -/
theorem writeFile_complete (h : AtRest dev) (hfail : dev.failAfter < 0) (name : CStr)
    (data : List UInt8) :
    AtRest (writeFile name data dev).2 ∧
      fsState (writeFile name data dev).2.blocks =
        outcome (fsState dev.blocks) name data dev.failAfter := by
  have hok := outcome_ok h.fs name data dev.failAfter
  unfold outcome at hok ⊢
  cases hp : plan (fsState dev.blocks) name data with
  | error e =>
      rw [writeFile, writeFileEx_eq h.sound, hp]
      exact ⟨h, rfl⟩
  | ok p =>
      rw [hp] at hok
      simp only [hfail, true_or, if_true] at hok ⊢
      obtain ⟨dev', hcall, htotal, -, hheader, hstate⟩ :=
        writeFile_of_plan h.sound hfail hp (h.total.symm ▸ (plan_ok hp).free.blk_high)
      rw [hcall]
      exact ⟨⟨htotal.trans h.total, hheader, hstate ▸ hok⟩, hstate⟩

end Mcsos.M16
