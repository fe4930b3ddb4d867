import Mcsos.Vfs.Contents

/-!
# Failed calls

A call that returns a negative number should leave the filesystem and the open descriptors as they
are.  Four calls do not: `mcs_vfs_open` and `mcs_ramfs_seed_file` create the file before they know
that they will succeed, `mcs_vfs_write` moves the offset of a descriptor for appending before it
looks for room, and `mcs_vfs_lseek` returns some large positions as negative numbers.

`failed_calls_untouched_iff` says just when that happens.
-/

namespace Mcsos.Vfs

open Act

variable {ι : Type} [DecidableEq ι] {s : State ι} {fs fs' : Ramfs} {path : CStr} {k : ℕ}

/-- The value of a status code. -/
def Err.code : Err → Int
  | enoent => -2
  | ebadf => -9
  | eacces => -13
  | eexist => -17
  | enotdir => -20
  | eisdir => -21
  | einval => -22
  | enfile => -23
  | enospc => -28
  | enametoolong => -36

theorem Err.code_neg (rc : Err) : rc.code < 0 := by
  cases rc <;> decide

/-- The number returned for a result. -/
def status {α : Type} (f : α → Int) : Except Err α → Int
  | .ok a => f a
  | .error rc => rc.code

theorem status_error_neg {α : Type} (f : α → Int) (rc : Err) :
    status f (.error rc) < 0 := rc.code_neg

theorem status_ok_not_neg {α : Type} {f : α → Int} {a : α} (hf : 0 ≤ f a) :
    ¬ status f (.ok a) < 0 :=
  Int.not_lt.mpr hf

/-- The number that a call returns. -/
def returned (op : Op ι) (s : State ι) : Int :=
  match op with
  | .create path => status (fun _ => 0) (createFile path s.fs).1
  | .seed path data => status (fun _ => 0) (seedFile path data s.fs).1
  | .open t path flags => status (fun fd => fd) (vfsOpen path flags ⟨s.fs, s.tables t⟩).1
  | .read t fd len => status (fun bytes => bytes.length) (vfsRead fd len ⟨s.fs, s.tables t⟩).1
  | .write t fd buf => status (fun n => n) (vfsWrite fd buf ⟨s.fs, s.tables t⟩).1
  | .lseek t fd offset whence => status id (vfsLseek fd offset whence ⟨s.fs, s.tables t⟩).1
  | .dup t fd => status (fun fd => fd) (vfsDup fd ⟨s.fs, s.tables t⟩).1
  | .close t fd => status (fun _ => 0) (vfsClose fd ⟨s.fs, s.tables t⟩).1

/-- The filesystem is the same, and the same descriptors are open, with the same entries. -/
structure Untouched (s s' : State ι) : Prop where
  nodes : s'.fs.nodes = s.fs.nodes
  nodeCount : s'.fs.nodeCount = s.fs.nodeCount
  dataUsed : s'.fs.dataUsed = s.fs.dataUsed
  data : s'.fs.data = s.fs.data
  tables : ∀ t, SameOpen (s.tables t) (s'.tables t)

/-- There is no node with this path, and a file can be created there. -/
def NewFile (fs : Ramfs) (path : CStr) : Prop :=
  ∃ rc parent leaf, lookup fs path = .error rc ∧ splitParentLeaf fs path = .ok (parent, leaf) ∧
    (fs.nodes parent).type = .dir ∧ fs.nodeCount < maxNodes ∧
    sizeAdd fs.dataUsed 256 ≤ ramfsDataBytes

/-- The calls that fail and leave something behind. -/
def LeavesTrace (op : Op ι) (s : State ι) : Prop :=
  match op with
  | .seed path data => NewFile s.fs path ∧ 256 < data.length
  | .open t path flags =>
      (NewFile s.fs path ∧ openFlags flags &&& oCreat ≠ 0) ∧
        ((∀ i, (s.tables t i).used = true) ∨
          (openFlags flags &&& oTrunc ≠ 0 ∧ canWrite (openFlags flags) = false))
  | .write t fd buf =>
      ∃ i k, Reaches ⟨s.fs, s.tables t⟩ fd i k ∧ (s.tables t i).flags &&& oAppend ≠ 0 ∧
        (s.tables t i).offset ≠ (s.fs.nodes k).size ∧
        (s.fs.nodes k).dataCapacity < (s.fs.nodes k).size + buf.length
  | .lseek t fd offset whence =>
      ∃ i k base, Seeks ⟨s.fs, s.tables t⟩ fd offset whence i k base ∧
        2 ^ 31 ≤ toLong (base + offset) % 2 ^ 32 ∧
        ((s.tables t i).offset : Int) ≠ toLong (base + offset)
  | _ => False

/-! ## Creating files -/

theorem createFile_of_newFile (h : Layout fs) (hnew : NewFile fs path) :
    ∃ leaf, createFile path fs = (.ok fs.nodeCount, addFile fs leaf) := by
  obtain ⟨rc, p, leaf, hlookup, hsplit, hdir, -, hroom⟩ := hnew
  obtain ⟨-, hp, hlength, -⟩ := findChild_of_splitParentLeaf h.count_pos hlookup hsplit
  obtain rfl : p = 0 := (h.type_eq_dir hp).mp hdir
  have hcount : fs.nodeCount ≤ 32 := by
    have hused := h.dataUsed
    have hlimit := h.count_le
    have hpos := h.count_pos
    have hsum : (fs.dataUsed + 256) % 2 ^ 64 ≤ 8192 := hroom
    omega
  refine ⟨leaf, ?_⟩
  unfold createFile
  rw [get_bind_apply, hlookup]
  dsimp only
  rw [hsplit]
  dsimp only
  rw [failIf_bind_of_not (not_not.mpr hdir), h.root.id, allocNode_apply h hlength, if_pos hcount]

theorem createFile_of_not_newFile (hnew : ¬ NewFile fs path) : (createFile path fs).2 = fs := by
  unfold createFile
  rw [get_bind_apply]
  cases hlookup : lookup fs path with
  | ok k =>
    dsimp only
    by_cases hfile : (fs.nodes k).type = .file
    · rw [failIf_bind_of_not (not_not.mpr hfile)]
      rfl
    · rw [failIf_bind_of_pos hfile]
  | error rc =>
    dsimp only
    cases hsplit : splitParentLeaf fs path with
    | error rc' => rfl
    | ok found =>
      obtain ⟨p, leaf⟩ := found
      dsimp only
      by_cases hdir : (fs.nodes p).type = .dir
      case neg => rw [failIf_bind_of_pos hdir]
      rw [failIf_bind_of_not (not_not.mpr hdir)]
      unfold allocNode
      by_cases hleaf : BadLength leaf
      · rw [failIf_bind_of_pos hleaf]
      rw [failIf_bind_of_not hleaf, get_bind_apply]
      by_cases hcount : maxNodes ≤ fs.nodeCount
      · rw [failIf_bind_of_pos hcount]
      -- all that is missing for a new file is the room for its bytes
      have hfull : VnodeType.file = .file ∧ ramfsDataBytes < sizeAdd fs.dataUsed 256 := by
        refine ⟨rfl, Nat.lt_of_not_le fun hroom => hnew ?_⟩
        exact ⟨rc, p, leaf, hlookup, hsplit, hdir, Nat.lt_of_not_le hcount, hroom⟩
      rw [failIf_bind_of_not hcount, failIf_bind_of_pos hfull]

theorem openNode_of_newFile (h : Layout fs) (hnew : NewFile fs path) {flags : UInt32}
    (hcreat : flags &&& oCreat ≠ 0) :
    ∃ leaf, openNode path flags fs = (.ok fs.nodeCount, addFile fs leaf) := by
  obtain ⟨leaf, hcreate⟩ := createFile_of_newFile h hnew
  obtain ⟨rc, -, -, hlookup, -⟩ := hnew
  refine ⟨leaf, ?_⟩
  unfold openNode
  rw [get_bind_apply, hlookup]
  dsimp only
  rw [failIf_bind_of_not hcreat, hcreate]

theorem openNode_of_not_newFile {flags : UInt32}
    (hnew : ¬ (NewFile fs path ∧ flags &&& oCreat ≠ 0)) :
    (openNode path flags fs).2 = fs := by
  unfold openNode
  rw [get_bind_apply]
  cases hlookup : lookup fs path with
  | ok k => rfl
  | error rc =>
    dsimp only
    by_cases hcreat : flags &&& oCreat = 0
    · rw [failIf_bind_of_pos hcreat]
    · rw [failIf_bind_of_not hcreat]
      exact createFile_of_not_newFile fun hfile => hnew ⟨hfile, hcreat⟩

/-! ## The calls -/

omit [DecidableEq ι] in
theorem Untouched.of_fs {s' : State ι} (hfs : s'.fs = s.fs)
    (htables : ∀ t, SameOpen (s.tables t) (s'.tables t)) : Untouched s s' := by
  refine ⟨?_, ?_, ?_, ?_, htables⟩ <;> rw [hfs]

omit [DecidableEq ι] in
theorem Untouched.refl (s : State ι) : Untouched s s := Untouched.of_fs rfl fun _ => SameOpen.refl _

/-- A call on a descriptor table that leaves the filesystem and the open descriptors as they are. -/
theorem Untouched.onTable {α : Type} {t : ι} {x : Act Env Err α} {r : Except Err α}
    {table' : FdTable} (hx : x ⟨s.fs, s.tables t⟩ = (r, ⟨s.fs, table'⟩))
    (hsame : SameOpen (s.tables t) table') :
    Untouched s (Vfs.onTable t x s) := by
  have hstate : Vfs.onTable t x s = ⟨s.fs, Function.update s.tables t table'⟩ := by
    rw [Vfs.onTable, hx]
  rw [hstate]
  refine Untouched.of_fs rfl fun t' => ?_
  dsimp only
  rcases eq_or_ne t' t with rfl | hne
  · rw [Function.update_self]
    exact hsame
  · rw [Function.update_of_ne hne]
    exact SameOpen.refl _

theorem create_untouched (hinv : Inv s) (path : CStr) (hneg : returned (.create path) s < 0) :
    Untouched s (exec (.create path) s) := by
  rcases createFile_cases hinv.layout path with ⟨rc, hrun⟩ | ⟨k, fs', hrun, -, -⟩
  · rw [exec, hrun]
    exact Untouched.refl s
  · rw [returned, hrun] at hneg
    exact absurd hneg (status_ok_not_neg (Int.le_refl 0))

theorem seed_untouched_iff (hinv : Inv s) (path : CStr) (data : List UInt8) :
    (returned (.seed path data) s < 0 → Untouched s (exec (.seed path data) s)) ↔
      ¬ LeavesTrace (.seed path data) s := by
  rcases seedFile_cases hinv.layout path data with ⟨rc, hcreate, hrun⟩ |
    ⟨k, fs', hcreate, -, -, ⟨hlong, hrun⟩ | ⟨hrun, hshort⟩⟩
  -- the file could not be created
  · refine iff_of_true (fun _ => ?_) fun ⟨hnew, _⟩ => ?_
    · rw [exec, hrun]
      exact Untouched.refl s
    · obtain ⟨leaf, hadd⟩ := createFile_of_newFile hinv.layout hnew
      cases (congrArg Prod.fst hadd).symm.trans (congrArg Prod.fst hcreate)
  -- it was created, or was there, but has not enough room
  · by_cases hnew : NewFile s.fs path
    · obtain ⟨leaf, hadd⟩ := createFile_of_newFile hinv.layout hnew
      obtain ⟨-, rfl⟩ := Prod.mk.inj (hadd.symm.trans hcreate)
      refine iff_of_false (fun h => ?_) fun h => h ⟨hnew, hlong⟩
      have hneg : returned (.seed path data) s < 0 := by
        rw [returned, hrun]
        exact status_error_neg _ _
      have hcount := (h hneg).nodeCount
      rw [exec, hrun] at hcount
      exact Nat.succ_ne_self _ hcount
    · have hsame := createFile_of_not_newFile hnew
      rw [hcreate] at hsame
      refine iff_of_true (fun _ => ?_) fun h => hnew h.1
      rw [exec, hrun]
      exact Untouched.of_fs hsame fun _ => SameOpen.refl _
  · refine iff_of_true (fun hneg => ?_) fun ⟨_, hlong⟩ => absurd hshort (Nat.not_le.mpr hlong)
    rw [returned, hrun] at hneg
    exact absurd hneg (status_ok_not_neg (Int.le_refl 0))

theorem open_untouched_iff (hinv : Inv s) (t : ι) (path : CStr) (flags : UInt32) :
    (returned (.open t path flags) s < 0 → Untouched s (exec (.open t path flags) s)) ↔
      ¬ LeavesTrace (.open t path flags) s := by
  have hfile : ∀ leaf, (addFile s.fs leaf).nodes s.fs.nodeCount = newNode s.fs 0 .file leaf 256 :=
    addFile_node s.fs
  by_cases hnew : NewFile s.fs path ∧ openFlags flags &&& oCreat ≠ 0
  · obtain ⟨leaf, hadd⟩ := openNode_of_newFile hinv.layout hnew.1 hnew.2
    rcases vfsOpen_cases (hinv.env t) path flags with ⟨rc, hnode, -⟩ |
      ⟨k, fs', hnode, -, ⟨hfails, rc, table', hrun, -⟩ | ⟨hopens, i, offset, -, hrun, -⟩⟩
    · cases (congrArg Prod.fst hadd).symm.trans (congrArg Prod.fst hnode)
    · obtain ⟨hk, rfl⟩ := Prod.mk.inj (hadd.symm.trans hnode)
      obtain rfl := Except.ok.inj hk
      refine iff_of_false (fun h => ?_) fun h => h ⟨hnew, ?_⟩
      · have hneg : returned (.open t path flags) s < 0 := by
          rw [returned, hrun]
          exact status_error_neg _ _
        have hcount := (h hneg).nodeCount
        rw [exec, Vfs.onTable, hrun] at hcount
        exact Nat.succ_ne_self _ hcount
      · rcases hfails with ⟨hdir, -⟩ | hfails
        · dsimp only at hdir
          rw [hfile] at hdir
          cases hdir
        · exact hfails
    · refine iff_of_true (fun hneg => ?_) fun h => hopens (Or.inr h.2)
      rw [returned, hrun] at hneg
      exact absurd hneg (status_ok_not_neg (Int.natCast_nonneg _))
  · refine iff_of_true (fun hneg => ?_) fun h => hnew h.1
    have hsame := openNode_of_not_newFile hnew
    rcases vfsOpen_cases (hinv.env t) path flags with ⟨rc, -, hrun⟩ |
      ⟨k, fs', hnode, -, ⟨-, rc, table', hrun, hopen⟩ | ⟨-, i, offset, -, hrun, -⟩⟩
    · exact Untouched.onTable hrun (SameOpen.refl _)
    · dsimp only at hnode
      rw [hnode] at hsame
      obtain rfl : fs' = s.fs := hsame
      exact Untouched.onTable hrun hopen
    · rw [returned, hrun] at hneg
      exact absurd hneg (status_ok_not_neg (Int.natCast_nonneg _))

theorem write_untouched_iff (hinv : Inv s) (t : ι) (fd : Int) (buf : List UInt8) :
    (returned (.write t fd buf) s < 0 → Untouched s (exec (.write t fd buf) s)) ↔
      ¬ LeavesTrace (.write t fd buf) s := by
  have henv := hinv.env t
  by_cases hreaches : ∃ i k, Reaches ⟨s.fs, s.tables t⟩ fd i k
  case neg =>
    obtain ⟨rc, hrun⟩ := vfsWrite_of_not_reaches henv buf fun i k hr => hreaches ⟨i, k, hr⟩
    refine iff_of_true (fun _ => Untouched.onTable hrun (SameOpen.refl _)) ?_
    rintro ⟨i, k, hr, -⟩
    exact hreaches ⟨i, k, hr⟩
  obtain ⟨i, k, hr⟩ := hreaches
  have hk := hr.lt henv
  rcases Nat.lt_or_ge (s.fs.nodes k).dataCapacity
      (writeOffset (s.tables t i) (s.fs.nodes k).size + buf.length) with hfull | hfits
  -- the call fails, and the offset is the one that it started with
  · have hrun := hr.vfsWrite_full hfull
    dsimp only at hrun
    have hneg : returned (.write t fd buf) s < 0 := by
      rw [returned, hrun]
      exact status_error_neg _ _
    by_cases hmoved : writeOffset (s.tables t i) (s.fs.nodes k).size = (s.tables t i).offset
    · refine iff_of_true (fun _ => Untouched.onTable hrun ?_) ?_
      · rw [hmoved, Function.update_eq_self]
        exact SameOpen.refl _
      · rintro ⟨i', k', hr', happend, hoffset, -⟩
        obtain ⟨rfl, rfl⟩ := hr.unique hr'
        rw [writeOffset, if_pos happend] at hmoved
        exact hoffset hmoved.symm
    · have happend : (s.tables t i).flags &&& oAppend ≠ 0 := by
        by_contra hno
        exact hmoved (if_neg (not_not.mpr hno))
      rw [writeOffset, if_pos happend] at hfull hmoved
      refine iff_of_false (fun h => ?_) fun h => h ⟨i, k, hr, happend, Ne.symm hmoved, hfull⟩
      have hentry := ((h hneg).tables t i).2 (fdGet_used hr.slot)
      rw [exec, Vfs.onTable, hrun, writeOffset, if_pos happend] at hentry
      dsimp only at hentry
      rw [Function.update_self, Function.update_self] at hentry
      exact hmoved (congrArg File.offset hentry)
  · have hw : Writes ⟨s.fs, s.tables t⟩ fd buf.length i k :=
      ⟨hr.slot, hr.access, hr.node, hr.file, hfits⟩
    refine iff_of_true (fun hneg => ?_) ?_
    · rw [returned, hw.vfsWrite_eq henv hk] at hneg
      exact absurd hneg (status_ok_not_neg (Int.natCast_nonneg _))
    · rintro ⟨i', k', hr', happend, -, hfull⟩
      obtain ⟨rfl, rfl⟩ := hr.unique hr'
      rw [writeOffset, if_pos happend] at hfits
      exact absurd hfits (Nat.not_le.mpr hfull)

/-- Positions that do not fit into the type of the result. -/
theorem toInt_neg_iff {n : Int} : toInt n < 0 ↔ 2 ^ 31 ≤ n % 2 ^ 32 := by
  rw [toInt, Int.bmod_def]
  split_ifs <;> omega

theorem lseek_untouched_iff (hinv : Inv s) (t : ι) (fd offset whence : Int) :
    (returned (.lseek t fd offset whence) s < 0 →
      Untouched s (exec (.lseek t fd offset whence) s)) ↔
      ¬ LeavesTrace (.lseek t fd offset whence) s := by
  rcases vfsLseek_cases (hinv.env t) fd offset whence with ⟨rc, hrun, hno⟩ | ⟨i, k, base,
    hs, -, hrun⟩
  · refine iff_of_true (fun _ => Untouched.onTable hrun (SameOpen.refl _)) ?_
    rintro ⟨i, k, base, hs, -⟩
    exact hno i k base hs
  have hreturned : returned (.lseek t fd offset whence) s = toInt (toLong (base + offset)) := by
    rw [returned, hrun]
    rfl
  rw [hreturned, toInt_neg_iff]
  by_cases hmoved : ((s.tables t i).offset : Int) = toLong (base + offset)
  · refine iff_of_true (fun _ => Untouched.onTable hrun ?_) ?_
    · dsimp only
      rw [← hmoved, Int.toNat_natCast, Function.update_eq_self]
      exact SameOpen.refl _
    · rintro ⟨i', k', base', hs', -, hoffset⟩
      obtain ⟨rfl, rfl, rfl⟩ := hs.unique hs'
      exact hoffset hmoved
  · constructor
    · rintro h ⟨i', k', base', hs', hlarge, -⟩
      obtain ⟨rfl, rfl, rfl⟩ := hs.unique hs'
      have hentry := ((h hlarge).tables t i').2 (fdGet_used hs.slot)
      rw [exec, Vfs.onTable, hrun] at hentry
      dsimp only at hentry
      rw [Function.update_self, Function.update_self] at hentry
      have hoffset : (toLong (base' + offset)).toNat = (s.tables t i').offset :=
        congrArg File.offset hentry
      exact hmoved (by rw [← hoffset, Int.toNat_of_nonneg hs.nonneg])
    · exact fun h hlarge => absurd ⟨i, k, base, hs, hlarge, hmoved⟩ h

theorem dup_untouched (t : ι) (fd : Int) (hneg : returned (.dup t fd) s < 0) :
    Untouched s (exec (.dup t fd) s) := by
  rcases vfsDup_cases ⟨s.fs, s.tables t⟩ fd with ⟨rc, hrun⟩ | ⟨i, j, -, -, hrun⟩
  · exact Untouched.onTable hrun (SameOpen.refl _)
  · rw [returned, hrun] at hneg
    exact absurd hneg (status_ok_not_neg (Int.natCast_nonneg _))

theorem read_untouched (hinv : Inv s) (t : ι) (fd : Int) (len : ℕ)
    (hneg : returned (.read t fd len) s < 0) : Untouched s (exec (.read t fd len) s) := by
  rcases vfsRead_cases (hinv.env t) fd len with ⟨rc, hrun⟩ | ⟨i, k, env', -, -, -, -, hrun, -⟩
  · exact Untouched.onTable hrun (SameOpen.refl _)
  · rw [returned, hrun] at hneg
    exact absurd hneg (status_ok_not_neg (Int.natCast_nonneg _))

theorem close_untouched (t : ι) (fd : Int) (hneg : returned (.close t fd) s < 0) :
    Untouched s (exec (.close t fd) s) := by
  rcases vfsClose_cases ⟨s.fs, s.tables t⟩ fd with hrun | ⟨i, -, hrun⟩
  · exact Untouched.onTable hrun (SameOpen.refl _)
  · rw [returned, hrun] at hneg
    exact absurd hneg (status_ok_not_neg (Int.le_refl 0))

/-- **Failed calls leave no trace, but for four kinds.**  In every state of every run, a call that
returns a negative number leaves the filesystem and the open descriptors as they are just when it is
not one of those of `LeavesTrace`. -/
theorem failed_calls_untouched_iff (fs : Ramfs) (before : List (Op ι)) (op : Op ι) :
    let s : State ι := run before (start fs)
    (returned op s < 0 → Untouched s (exec op s)) ↔ ¬ LeavesTrace op s := by
  intro s
  have hinv : Inv s := inv_run before (inv_start fs)
  cases op with
  | create path => exact iff_of_true (create_untouched hinv path) id
  | seed path data => exact seed_untouched_iff hinv path data
  | «open» t path flags => exact open_untouched_iff hinv t path flags
  | read t fd len => exact iff_of_true (read_untouched hinv t fd len) id
  | write t fd buf => exact write_untouched_iff hinv t fd buf
  | lseek t fd offset whence => exact lseek_untouched_iff hinv t fd offset whence
  | dup t fd => exact iff_of_true (dup_untouched t fd) id
  | close t fd => exact iff_of_true (close_untouched t fd) id

/-- A file of three bytes is opened to append to it, and the offset is moved back to its start. -/
def tracedOps : List (Op Unit) :=
  [.open () pathF (oCreat ||| oRdwr ||| oAppend), .write () 0 [0x61, 0x62, 0x63], .lseek () 0 0 0]

/-- Each of the four kinds: a read-only open that truncates, of a file that is not there; seeding a
new file with too many bytes; an append that does not fit, after the offset was moved; a seek to
`2 ^ 31`. -/
theorem failed_calls_leave_traces :
    let s : State Unit := start blankRamfs
    let s' : State Unit := run tracedOps s
    ¬ (returned (.open () pathF (oCreat ||| oTrunc)) s < 0 →
        Untouched s (exec (.open () pathF (oCreat ||| oTrunc)) s)) ∧
      ¬ (returned (.seed pathF (List.replicate 257 0)) s < 0 →
        Untouched s (exec (.seed pathF (List.replicate 257 0)) s)) ∧
      ¬ (returned (.write () 0 (List.replicate 254 0)) s' < 0 →
        Untouched s' (exec (.write () 0 (List.replicate 254 0)) s')) ∧
      ¬ (returned (.lseek () 0 (2 ^ 31) 0) s' < 0 →
        Untouched s' (exec (.lseek () 0 (2 ^ 31) 0) s')) := by
  intro s s'
  have hinv : Inv s := inv_start blankRamfs
  have hinv' : Inv s' := inv_run tracedOps hinv
  have hnew : NewFile s.fs pathF :=
    ⟨.enoent, 0, [0x66], by decide, by decide, by decide, by decide, by decide⟩
  have hopen : (s'.tables () ⟨0, by decide⟩).used = true := by decide
  have hreaches : Reaches ⟨s'.fs, s'.tables ()⟩ 0 ⟨0, by decide⟩ 1 := by
    refine ⟨?_, ?_, ?_, ?_⟩ <;> decide
  refine ⟨fun h => ?_, fun h => ?_, fun h => ?_, fun h => ?_⟩
  · exact absurd (h (by decide)).nodeCount (by decide)
  · refine (seed_untouched_iff hinv pathF _).mp h ⟨hnew, ?_⟩
    rw [List.length_replicate]
    decide
  · refine (write_untouched_iff hinv' () 0 _).mp h ⟨_, 1, hreaches, by decide, by decide, ?_⟩
    rw [List.length_replicate]
    decide
  · exact absurd (((h (by decide)).tables () _).2 hopen) (by decide)

end Mcsos.Vfs
