import Mcsos.Vfs.Contents

/-!
# Appending

Each descriptor has an offset of its own, and that of a copy soon differs from the original.  A
write with `MCS_O_APPEND` does not look at it: it starts at the end that the file has at that
moment.  So as long as nobody truncates the file, seeds it or writes into it in another way, it has
its old bytes and behind them those of all writes that went well, in the order of the calls.
-/

namespace Mcsos.Vfs

variable {ι : Type} [DecidableEq ι] {s : State ι} {t : ι} {fd : Int} {i : Fin maxOpenFiles} {k : ℕ}
  {buf : List UInt8}

/-- A descriptor that was opened on file `k` to append to it. -/
structure Appender (s : State ι) (t : ι) (fd : Int) (i : Fin maxOpenFiles) (k : ℕ) : Prop where
  slot : fdGet (s.tables t) fd = some i
  node : (s.tables t i).node = some k
  append : (s.tables t i).flags &&& oAppend ≠ 0
  access : canWrite (s.tables t i).flags = true

/-- The call does not truncate or seed file `k`, and does not write to it without appending. -/
def AppendOnly (k : ℕ) (op : Op ι) (s : State ι) : Prop :=
  match op with
  | .seed path _ => pathNode s.fs path ≠ k
  | .open _ path flags => flags &&& oTrunc ≠ 0 → pathNode s.fs path ≠ k
  | .write t fd _ => ∀ i, fdGet (s.tables t) fd = some i → (s.tables t i).node = some k →
      (s.tables t i).flags &&& oAppend ≠ 0
  | _ => True

/-- The bytes of a write to file `k` that returned their number. -/
def added (k : ℕ) (op : Op ι) (s : State ι) : List UInt8 :=
  match op with
  | .write t fd buf =>
      match (vfsWrite fd buf ⟨s.fs, s.tables t⟩).1 with
      | .ok _ => if op.file s = some k then buf else []
      | .error _ => []
  | _ => []

/-- The bytes of all these writes in a run. -/
def appended (k : ℕ) : List (Op ι) → State ι → List UInt8
  | [], _ => []
  | op :: ops, s => added k op s ++ appended k ops (exec op s)

/-! ## One call -/

/-- A write at the end. -/
theorem put_length (l buf : List UInt8) : put l l.length buf = l ++ buf := by
  refine List.ext_getElem (by simp [put]) fun x hx hx' => ?_
  simp only [put, List.getElem_map, List.getElem_range]
  rw [List.length_append] at hx'
  by_cases hold : x < l.length
  · rw [if_neg (by omega), List.getElem_append_left hold, List.getD_eq_getElem _ _ hold]
  · rw [if_pos (by omega), List.getElem_append_right (by omega), List.getD_eq_getElem _
      _ (by omega)]

theorem content_written_end (fs : Ramfs) (k : ℕ) (buf : List UInt8) :
    content (written fs k (fs.nodes k).size buf) k = content fs k ++ buf := by
  have hput : content (written fs k (fs.nodes k).size buf) k = put (content fs k)
      (fs.nodes k).size buf :=
    (content_written ..).mpr fun x hle hlt => absurd hlt (Nat.not_lt.mpr hle)
  rw [hput, ← length_content, put_length]

theorem writeOffset_append {file : File} (h : file.flags &&& oAppend ≠ 0) (size : ℕ) :
    writeOffset file size = size := if_pos h

omit [DecidableEq ι] in
theorem added_of_error {rc : Err} (h : (vfsWrite fd buf ⟨s.fs, s.tables t⟩).1 = .error rc) :
    added k (.write t fd buf) s = [] := by
  rw [added, h]

omit [DecidableEq ι] in
theorem added_of_ok {n : ℕ} (h : (vfsWrite fd buf ⟨s.fs, s.tables t⟩).1 = .ok n) :
    added k (.write t fd buf) s = if Op.file s (.write t fd buf) = some k then buf else [] := by
  rw [added, h]

omit [DecidableEq ι] in
/-- Nothing is added but by writes. -/
theorem added_of_other {op : Op ι} (hother : ∀ t fd buf, op ≠ .write t fd buf) :
    added k op s = [] := by
  cases op with
  | write t fd buf => exact absurd rfl (hother t fd buf)
  | _ => rfl

omit [DecidableEq ι] in
/-- A call on another file adds nothing. -/
theorem added_of_ne {op : Op ι} (h : op.file s ≠ some k) : added k op s = [] := by
  cases op with
  | write t fd buf =>
    cases hrun : (vfsWrite fd buf ⟨s.fs, s.tables t⟩).1 with
    | error rc => exact added_of_error hrun
    | ok n => rw [added_of_ok hrun, if_neg h]
  | create path => rfl
  | seed path data => rfl
  | «open» t path flags => rfl
  | read t fd len => rfl
  | lseek t fd offset whence => rfl
  | dup t fd => rfl
  | close t fd => rfl

theorem content_exec_write (hinv : Inv s) (hop : AppendOnly k (.write t fd buf) s)
    (hfile : Op.file s (.write t fd buf) = some k) :
    content (exec (.write t fd buf) s).fs k = content s.fs k ++ added k (.write t fd buf) s := by
  rcases vfsWrite_cases (hinv.env t) fd buf with ⟨rc, table', hrun, -⟩ | ⟨i, k', hw, -, -, hrun⟩
  · rw [added_of_error (congrArg Prod.fst hrun), List.append_nil, exec, onTable, hrun]
  · have hslot : fdGet (s.tables t) fd = some i := hw.slot
    have hnode : (s.tables t i).node = some k' := hw.node
    obtain rfl : k' = k := Option.some.inj ((file_eq_node hslot hnode).symm.trans hfile)
    have hoffset := writeOffset_append (hop i hslot hnode) (s.fs.nodes k').size
    rw [added_of_ok (congrArg Prod.fst hrun), if_pos hfile, exec, onTable, hrun]
    dsimp only
    rw [hoffset, content_written_end]

/-- A call on the file that is no write leaves the content as it is. -/
theorem content_exec_other (hinv : Inv s) (hk : k < s.fs.nodeCount) {op : Op ι}
    (hop : AppendOnly k op s) (hfile : op.file s = some k)
    (hother : ∀ t fd buf, op ≠ .write t fd buf) :
    content (exec op s).fs k = content s.fs k := by
  cases op with
  | write t fd buf => exact absurd rfl (hother t fd buf)
  | create path =>
    rcases createFile_cases hinv.layout path with ⟨rc, hrun⟩ | ⟨j, fs', hrun, -, hfound⟩
    · rw [exec, hrun]
    · rw [exec, hrun]
      exact hfound.content_eq hk
  | seed path data => exact absurd (Option.some.inj hfile) hop
  | «open» t path flags =>
    have htrunc : ¬ openFlags flags &&& oTrunc ≠ 0 := by
      rw [openFlags_trunc]
      exact fun htrunc => hop htrunc (Option.some.inj hfile)
    rcases vfsOpen_cases (hinv.env t) path flags with ⟨rc, -, hrun⟩ |
      ⟨j, fs', -, hfound, ⟨-, rc, table', hrun, -⟩ | ⟨-, i, offset, -, hrun, -⟩⟩
    · rw [exec, onTable, hrun]
    · rw [exec, onTable, hrun]
      exact hfound.content_eq hk
    · rw [exec, onTable, hrun]
      dsimp only
      rw [if_neg htrunc]
      exact hfound.content_eq hk
  | read t fd len => exact (vfsRead_same (hinv.env t) fd len).content_eq k
  | lseek t fd offset whence => exact (vfsLseek_same (hinv.env t) fd offset whence).content_eq k
  | dup t fd => exact (vfsDup_same ⟨s.fs, s.tables t⟩ fd).content_eq k
  | close t fd => exact (vfsClose_same ⟨s.fs, s.tables t⟩ fd).content_eq k

/-- A call of the kinds considered leaves the content as it is, or adds to its end. -/
theorem content_exec (hinv : Inv s) (hk : k < s.fs.nodeCount) {op : Op ι}
    (hop : AppendOnly k op s) :
    content (exec op s).fs k = content s.fs k ++ added k op s := by
  by_cases hfile : op.file s = some k
  case neg =>
    rw [added_of_ne hfile, List.append_nil]
    exact (exec_local hinv op).fs.content_eq hinv.layout hk hfile
  by_cases hwrite : ∃ t fd buf, op = .write t fd buf
  · obtain ⟨t, fd, buf, rfl⟩ := hwrite
    exact content_exec_write hinv hop hfile
  · have hother : ∀ t fd buf, op ≠ .write t fd buf := fun t fd buf heq => hwrite ⟨t, fd, buf, heq⟩
    calc content (exec op s).fs k
        = content s.fs k := content_exec_other hinv hk hop hfile hother
      _ = content s.fs k ++ [] := (List.append_nil _).symm
      _ = content s.fs k ++ added k op s := by rw [added_of_other hother]

/-! ## Descriptors -/

/-- The descriptor of slot `i` is open, for the same node and in the same way as before. -/
structure Stays (table table' : FdTable) (i : Fin maxOpenFiles) : Prop where
  used : (table' i).used = true
  flags : (table' i).flags = (table i).flags
  node : (table' i).node = (table i).node

namespace Stays

variable {table table' : FdTable} {j : Fin maxOpenFiles} {file : File}

theorem of_eq (hi : (table i).used = true) (h : table' i = table i) : Stays table table' i := by
  refine ⟨?_, ?_, ?_⟩ <;> rw [h]
  exact hi

/-- The entry of a descriptor that was not open is filled in. -/
theorem update_free (hi : (table i).used = true) (hj : (table j).used = false) :
    Stays table (Function.update table j file) i := by
  have hne : i ≠ j := by
    rintro rfl
    rw [hi] at hj
    cases hj
  exact of_eq hi (Function.update_of_ne hne ..)

/-- The offset of a descriptor changes. -/
theorem update_offset (hi : (table i).used = true) (j : Fin maxOpenFiles) (offset : ℕ) :
    Stays table (Function.update table j { table j with offset := offset }) i := by
  rcases eq_or_ne i j with rfl | hne
  · refine ⟨?_, ?_, ?_⟩ <;> rw [Function.update_self]
    exact hi
  · exact of_eq hi (Function.update_of_ne hne ..)

end Stays

variable {env : Env}

theorem vfsOpen_stays (h : EnvOk env) (hi : (env.table i).used = true) (path : CStr)
    (flags : UInt32) :
    Stays env.table (vfsOpen path flags env).2.table i := by
  rcases vfsOpen_cases h path flags with ⟨rc, -, hrun⟩ |
    ⟨k, fs', -, -, ⟨-, rc, table', hrun, hsame⟩ | ⟨-, j, offset, hfree, hrun, -⟩⟩
  · rw [hrun]
    exact Stays.of_eq hi rfl
  · rw [hrun]
    exact Stays.of_eq hi ((hsame i).2 hi)
  · rw [hrun]
    exact Stays.update_free hi hfree

theorem vfsRead_stays (h : EnvOk env) (hi : (env.table i).used = true) (fd : Int) (len : ℕ) :
    Stays env.table (vfsRead fd len env).2.table i := by
  rcases vfsRead_cases h fd len with ⟨rc, hrun⟩ | ⟨j, k, env', -, -, -, -, hrun, rfl | ⟨n, -, rfl⟩⟩
  · rw [hrun]
    exact Stays.of_eq hi rfl
  · rw [hrun]
    exact Stays.of_eq hi rfl
  · rw [hrun]
    exact Stays.update_offset hi j _

theorem vfsWrite_stays (h : EnvOk env) (hi : (env.table i).used = true) (fd : Int)
    (buf : List UInt8) :
    Stays env.table (vfsWrite fd buf env).2.table i := by
  rcases vfsWrite_table h fd buf with htable | ⟨j, offset, htable⟩
  · exact Stays.of_eq hi (congrFun htable i)
  · rw [htable]
    exact Stays.update_offset hi j offset

theorem vfsLseek_stays (h : EnvOk env) (hi : (env.table i).used = true) (fd offset whence : Int) :
    Stays env.table (vfsLseek fd offset whence env).2.table i := by
  rcases vfsLseek_cases h fd offset whence with ⟨rc, hrun, -⟩ | ⟨j, k, base, -, -, hrun⟩
  · rw [hrun]
    exact Stays.of_eq hi rfl
  · rw [hrun]
    exact Stays.update_offset hi j _

theorem vfsDup_stays (env : Env) (hi : (env.table i).used = true) (fd : Int) :
    Stays env.table (vfsDup fd env).2.table i := by
  rcases vfsDup_cases env fd with ⟨rc, hrun⟩ | ⟨j, j', -, hfree, hrun⟩
  · rw [hrun]
    exact Stays.of_eq hi rfl
  · rw [hrun]
    exact Stays.update_free hi hfree

theorem vfsClose_stays (env : Env) (hi : (env.table i).used = true) {fd : Int} (hfd : fd ≠ i.val) :
    Stays env.table (vfsClose fd env).2.table i := by
  rcases vfsClose_cases env fd with hrun | ⟨j, hj, hrun⟩
  · rw [hrun]
    exact Stays.of_eq hi rfl
  · have hne : i ≠ j := by
      rintro rfl
      exact hfd (fdGet_eq_some_iff.mp hj).1
    rw [hrun]
    exact Stays.of_eq hi (Function.update_of_ne hne ..)

/-- Only a call on the same table can change a descriptor. -/
theorem stays_onTable {α : Type} {t t' : ι} {x : Act Env Err α} (hi : (s.tables t i).used = true)
    (h : t' = t → Stays (s.tables t) (x ⟨s.fs, s.tables t⟩).2.table i) :
    Stays (s.tables t) ((onTable t' x s).tables t) i := by
  rw [onTable]
  dsimp only
  rcases eq_or_ne t' t with rfl | hne
  · rw [Function.update_self]
    exact h rfl
  · exact Stays.of_eq hi (congrFun (Function.update_of_ne (Ne.symm hne) ..) i)

/-- An open descriptor stays open until it is closed. -/
theorem exec_stays (hinv : Inv s) (hi : (s.tables t i).used = true) {op : Op ι}
    (hop : op ≠ .close t i.val) : Stays (s.tables t) ((exec op s).tables t) i := by
  cases op with
  | create path => exact Stays.of_eq hi rfl
  | seed path data => exact Stays.of_eq hi rfl
  | «open» t' path flags => exact stays_onTable hi fun _ => vfsOpen_stays (hinv.env t) hi path flags
  | read t' fd len => exact stays_onTable hi fun _ => vfsRead_stays (hinv.env t) hi fd len
  | write t' fd buf => exact stays_onTable hi fun _ => vfsWrite_stays (hinv.env t) hi fd buf
  | lseek t' fd offset whence =>
      exact stays_onTable hi fun _ => vfsLseek_stays (hinv.env t) hi fd offset whence
  | dup t' fd => exact stays_onTable hi fun _ => vfsDup_stays ⟨s.fs, s.tables t⟩ hi fd
  | close t' fd =>
      refine stays_onTable hi ?_
      rintro rfl
      exact vfsClose_stays ⟨s.fs, s.tables t'⟩ hi fun hfd => hop (congrArg (Op.close t') hfd)

omit [DecidableEq ι] in
theorem appender_iff : Appender s t fd i k ↔ fd = (i.val : Int) ∧ (s.tables t i).used = true ∧
    (s.tables t i).node = some k ∧ (s.tables t i).flags &&& oAppend ≠ 0 ∧
    canWrite (s.tables t i).flags = true := by
  constructor
  · intro h
    obtain ⟨hfd, hused⟩ := fdGet_eq_some_iff.mp h.slot
    exact ⟨hfd, hused, h.node, h.append, h.access⟩
  · rintro ⟨hfd, hused, hnode, happend, haccess⟩
    exact ⟨fdGet_eq_some_iff.mpr ⟨hfd, hused⟩, hnode, happend, haccess⟩

theorem Appender.exec (h : Appender s t fd i k) (hinv : Inv s) {op : Op ι}
    (hop : op ≠ .close t fd) :
    Appender (exec op s) t fd i k := by
  obtain ⟨rfl, hused, hnode, happend, haccess⟩ := appender_iff.mp h
  have hstays := exec_stays hinv hused hop
  refine appender_iff.mpr ⟨rfl, hstays.used, ?_, ?_, ?_⟩
  · rw [hstays.node, hnode]
  · rw [hstays.flags]
    exact happend
  · rw [hstays.flags, haccess]

/-- A copy appends to the same file. -/
theorem Appender.dup (h : Appender s t fd i k) {n : ℕ}
    (hdup : (vfsDup fd ⟨s.fs, s.tables t⟩).1 = .ok n) :
    ∃ j, Appender (Vfs.exec (.dup t fd) s) t n j k := by
  rcases vfsDup_cases ⟨s.fs, s.tables t⟩ fd with ⟨rc, hrun⟩ | ⟨i', j, hi', -, hrun⟩
  · rw [hrun] at hdup
    cases hdup
  · obtain rfl : i = i' := Option.some.inj (h.slot.symm.trans hi')
    have hentry : (Vfs.exec (.dup t fd) s).tables t j = s.tables t i := by
      rw [Vfs.exec, onTable, hrun]
      dsimp only
      rw [Function.update_self, Function.update_self]
    rw [hrun] at hdup
    obtain rfl : j.val = n := Except.ok.inj hdup
    exact ⟨j, appender_iff.mpr ⟨rfl, by rw [hentry]; exact fdGet_used h.slot,
      by rw [hentry]; exact h.node, by rw [hentry]; exact h.append,
      by rw [hentry]; exact h.access⟩⟩

/-- An appending write is refused just when the file would get too large. -/
theorem Appender.write (h : Appender s t fd i k) (hinv : Inv s)
    (hfile : (s.fs.nodes k).type = .file) (buf : List UInt8) :
    if (content s.fs k).length + buf.length ≤ (s.fs.nodes k).dataCapacity then
      (vfsWrite fd buf ⟨s.fs, s.tables t⟩).1 = .ok buf.length ∧
        content (Vfs.exec (.write t fd buf) s).fs k = content s.fs k ++ buf
    else
      (vfsWrite fd buf ⟨s.fs, s.tables t⟩).1 = .error .enospc ∧
        (Vfs.exec (.write t fd buf) s).fs = s.fs := by
  have hdir : (s.fs.nodes k).type ≠ .dir := by
    rw [hfile]
    exact fun heq => nomatch heq
  have hr : Reaches ⟨s.fs, s.tables t⟩ fd i k := ⟨h.slot, h.access, h.node, hdir⟩
  have hk := hr.lt (hinv.env t)
  have hpos := (hinv.layout.type_eq_file hk).mp hfile
  have hoffset := writeOffset_append h.append (s.fs.nodes k).size
  rw [length_content]
  split_ifs with hfits
  · have hw : Writes ⟨s.fs, s.tables t⟩ fd buf.length i k := by
      refine ⟨h.slot, h.access, h.node, hdir, ?_⟩
      dsimp only
      rwa [hoffset]
    have hrun := hw.vfsWrite_eq (hinv.env t) hk
    dsimp only at hrun
    rw [hoffset] at hrun
    rw [Vfs.exec, onTable, hrun]
    exact ⟨rfl, content_written_end s.fs k buf⟩
  · have hfull : (s.fs.nodes k).dataCapacity <
        writeOffset (s.tables t i) (s.fs.nodes k).size + buf.length := by
      rw [hoffset]
      exact Nat.not_le.mp hfits
    -- the file itself is not larger than its region
    have hsize : ¬ (s.fs.nodes k).dataCapacity < (s.fs.nodes k).size := by
      rw [(hinv.layout.file k hpos hk).dataCapacity]
      exact Nat.not_lt.mpr (hinv.layout.file k hpos hk).size
    have hrun := hr.vfsWrite_full hfull
    dsimp only at hrun
    rw [hoffset, if_neg hsize] at hrun
    rw [Vfs.exec, onTable, hrun]
    exact ⟨rfl, rfl⟩

/-! ## Runs -/

theorem Appender.run (hinv : Inv s) {ops : List (Op ι)} (h : Appender s t fd i k)
    (hops : ∀ op ∈ ops, op ≠ .close t fd) : Appender (run ops s) t fd i k := by
  induction ops generalizing s with
  | nil => exact h
  | cons op ops ih =>
    exact ih (exec_local hinv op).inv (h.exec hinv (hops op List.mem_cons_self))
      fun o ho => hops o (List.mem_cons_of_mem op ho)

theorem count_run (hinv : Inv s) (ops : List (Op ι)) :
    s.fs.nodeCount ≤ (run ops s).fs.nodeCount := by
  induction ops generalizing s with
  | nil => exact Nat.le_refl _
  | cons op ops ih => exact Nat.le_trans (exec_local hinv op).fs.count (ih (exec_local hinv op).inv)

theorem content_run (hinv : Inv s) (hk : k < s.fs.nodeCount) {ops : List (Op ι)}
    (hops : AllSteps exec (AppendOnly k) ops s) :
    content (run ops s).fs k = content s.fs k ++ appended k ops s := by
  induction ops generalizing s with
  | nil => exact (List.append_nil _).symm
  | cons op ops ih =>
    have hstep := exec_local hinv op
    have hrest : content (run ops (exec op s)).fs k =
        content (exec op s).fs k ++ appended k ops (exec op s) :=
      ih hstep.inv (Nat.lt_of_lt_of_le hk hstep.fs.count) hops.2
    calc content (run (op :: ops) s).fs k
        = content (exec op s).fs k ++ appended k ops (exec op s) := hrest
      _ = content s.fs k ++ added k op s ++ appended k ops (exec op s) := by
        rw [content_exec hinv hk hops.1]
      _ = content s.fs k ++ appended k (op :: ops) s := List.append_assoc ..

/-- **Concurrent appenders lose nothing.**  From any state of a run on, as long as file `k` is
written by appending only: its content is the content of that state, and behind it the bytes of all
writes to it that went well, in the order of the calls; a descriptor for appending stays one until
it is closed; and a write through it is done completely, or refused with `MCS_ENOSPC` if all these
bytes exceed the capacity of the file. -/
theorem appends_never_lost (fs : Ramfs) (before ops : List (Op ι)) {k : ℕ}
    (hk : k < (run before (start fs) : State ι).fs.nodeCount)
    (hfile : ((run before (start fs) : State ι).fs.nodes k).type = .file)
    (hops : AllSteps exec (AppendOnly k) ops (run before (start fs) : State ι)) :
    let s : State ι := run before (start fs)
    let s' : State ι := run ops s
    content s'.fs k = content s.fs k ++ appended k ops s ∧
      (∀ t fd i, Appender s t fd i k → (∀ op ∈ ops, op ≠ .close t fd) → Appender s' t fd i k) ∧
      ∀ t fd i buf, Appender s' t fd i k →
        if (content s.fs k ++ appended k ops s).length + buf.length ≤
          (s'.fs.nodes k).dataCapacity then
          (vfsWrite fd buf ⟨s'.fs, s'.tables t⟩).1 = .ok buf.length ∧
            content (exec (.write t fd buf) s').fs k = content s'.fs k ++ buf
        else
          (vfsWrite fd buf ⟨s'.fs, s'.tables t⟩).1 = .error .enospc ∧
            (exec (.write t fd buf) s').fs = s'.fs := by
  intro s s'
  have hinv : Inv s := inv_run before (inv_start fs)
  have hinv' : Inv s' := inv_run ops hinv
  have hcontent : content s'.fs k = content s.fs k ++ appended k ops s := content_run hinv hk hops
  have hk' : k < s'.fs.nodeCount := Nat.lt_of_lt_of_le hk (count_run hinv ops)
  have hfile' : (s'.fs.nodes k).type = .file :=
    (hinv'.layout.type_eq_file hk').mpr ((hinv.layout.type_eq_file hk).mp hfile)
  refine ⟨hcontent, fun t fd i h hopen => h.run hinv hopen, fun t fd i buf h => ?_⟩
  rw [← hcontent]
  exact h.write hinv' hfile' buf

/-- A file is opened to append to it, and the descriptor is copied. -/
def appendStart : List (Op Unit) :=
  [.open () pathF (oCreat ||| oRdwr ||| oAppend), .dup () 0]

/-- The two descriptors take turns; one of them is moved in between. -/
def appendTurns : List (Op Unit) :=
  [.write () 0 [0x61, 0x62], .write () 1 [0x63], .lseek () 0 0 0, .write () 0 [0x64]]

theorem appends_never_lost_two_descriptors :
    let s : State Unit := run appendStart (start blankRamfs)
    content (run appendTurns s).fs 1 = content s.fs 1 ++ appended 1 appendTurns s ∧
      content s.fs 1 ++ appended 1 appendTurns s = [0x61, 0x62, 0x63, 0x64] := by
  intro s
  have hops : AllSteps exec (AppendOnly 1) appendTurns s := by
    refine ⟨?_, ?_, trivial, ?_, trivial⟩
    all_goals
      intro i hi _
      revert i
      decide
  exact ⟨(appends_never_lost blankRamfs appendStart appendTurns (by decide)
    (by decide) hops).1, by decide⟩

end Mcsos.Vfs
