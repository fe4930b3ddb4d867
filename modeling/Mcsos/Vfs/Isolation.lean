import Mcsos.Vfs.Calls
import Mathlib.Algebra.BigOperators.Intervals

/-!
# Isolation of files

In every run, whatever the paths, flags, descriptors, lengths and offsets: the filesystem is well
formed, the code uses the bytes of a file only for calls on that file, and a call on one file does
not change another.  `exec_local` is the step lemma, a case for each call.
-/

namespace Mcsos.Vfs

variable {ι : Type} [DecidableEq ι] {fs fs' : Ramfs} {s : State ι} {k : ℕ}

/-- The node that a call works on: the one of its descriptor or with its path.  A new file is the
node after the last one. -/
def Op.file (s : State ι) : Op ι → Option ℕ
  | .create path | .seed path _ | .open _ path _ => some (pathNode s.fs path)
  | .read t fd _ | .write t fd _ | .lseek t fd _ _ | .dup t fd | .close t fd =>
      (fdGet (s.tables t) fd).bind fun i => (s.tables t i).node

/-- A well-formed filesystem with its descriptor tables. -/
structure WellFormed (s : State ι) : Prop where
  count : 1 ≤ s.fs.nodeCount ∧ s.fs.nodeCount ≤ maxNodes
  root : (s.fs.nodes 0).used = true ∧ (s.fs.nodes 0).id = 0 ∧ (s.fs.nodes 0).parent = 0 ∧
    (s.fs.nodes 0).type = .dir ∧ nameOf s.fs 0 = rootName
  file : ∀ i, 0 < i → i < s.fs.nodeCount → (s.fs.nodes i).used = true ∧ (s.fs.nodes i).id = i ∧
    (s.fs.nodes i).parent = 0 ∧ (s.fs.nodes i).type = .file
  names : ∀ i j, i < s.fs.nodeCount → j < s.fs.nodeCount → nameOf s.fs i = nameOf s.fs j → i = j
  size : ∀ i < s.fs.nodeCount, (s.fs.nodes i).size ≤ (s.fs.nodes i).dataCapacity
  disjoint : ∀ i j, i < s.fs.nodeCount → j < s.fs.nodeCount → i ≠ j →
    ∀ x, ¬ (InRegion s.fs i x ∧ InRegion s.fs j x)
  inside :
    ∀ i < s.fs.nodeCount, (s.fs.nodes i).dataOffset + (s.fs.nodes i).dataCapacity ≤ ramfsDataBytes
  dataUsed : s.fs.dataUsed = ∑ i ∈ Finset.range s.fs.nodeCount, (s.fs.nodes i).dataCapacity
  descriptors :
    ∀ t i, (s.tables t i).used = true → ∃ k < s.fs.nodeCount, (s.tables t i).node = some k

/-- The invariant of runs. -/
structure Inv (s : State ι) : Prop where
  layout : Layout s.fs
  tables : ∀ t, TableOk s.fs.nodeCount (s.tables t)

omit [DecidableEq ι] in
theorem Inv.env (h : Inv s) (t : ι) : EnvOk ⟨s.fs, s.tables t⟩ := ⟨h.layout, h.tables t⟩

theorem Layout.sum_capacity (h : Layout fs) :
    ∑ i ∈ Finset.range fs.nodeCount, (fs.nodes i).dataCapacity = 256 * (fs.nodeCount - 1) := by
  obtain ⟨n, hn⟩ : ∃ n, fs.nodeCount = n + 1 := ⟨fs.nodeCount - 1, by have := h.count_pos; omega⟩
  have hfiles : ∀ i ∈ Finset.range n, (fs.nodes (i + 1)).dataCapacity = 256 := by
    intro i hi
    have hlt := Finset.mem_range.mp hi
    exact (h.file (i + 1) (Nat.succ_pos i) (by omega)).dataCapacity
  rw [hn, Finset.sum_range_succ', h.root.dataCapacity, Finset.sum_const_nat hfiles,
    Finset.card_range, Nat.add_zero, Nat.add_sub_cancel, Nat.mul_comm]

omit [DecidableEq ι] in
theorem Inv.wellFormed (h : Inv s) : WellFormed s := by
  obtain ⟨hl, ht⟩ := h
  have hcount := hl.count_le
  refine ⟨⟨hl.count_pos, Nat.le_trans hcount (by decide)⟩,
    ⟨hl.root.used, hl.root.id, hl.root.parent, hl.root.type, hl.rootNamed⟩, ?_, ?_, ?_,
    ?_, ?_, ?_, ht⟩
  · intro i hpos hi
    have hfile := hl.file i hpos hi
    exact ⟨hfile.used, hfile.id, hfile.parent, hfile.type⟩
  · intro i j hi hj heq
    rcases Nat.lt_trichotomy i j with hlt | rfl | hgt
    · exact absurd heq (hl.names i j hlt hj)
    · rfl
    · exact absurd heq.symm (hl.names j i hgt hi)
  · intro i hi
    rcases Nat.eq_zero_or_pos i with rfl | hpos
    · rw [hl.root.size]
      exact Nat.zero_le _
    · rw [(hl.file i hpos hi).dataCapacity]
      exact (hl.file i hpos hi).size
  · intro i j hi hj hne x hx
    rw [hl.inRegion_iff hi, hl.inRegion_iff hj] at hx
    omega
  · intro i hi
    rcases Nat.eq_zero_or_pos i with rfl | hpos
    · rw [hl.root.dataOffset, hl.root.dataCapacity]
      exact Nat.zero_le _
    · rw [(hl.file i hpos hi).dataOffset, (hl.file i hpos hi).dataCapacity]
      show 256 * (i - 1) + 256 ≤ 8192
      omega
  · rw [hl.dataUsed, hl.sum_capacity]

/-! ## The step lemma -/

theorem Layout.inRegion_of_le (h : Layout fs) (hpos : 0 < k) (hk : k < fs.nodeCount) {o n x : ℕ}
    (hn : o + n ≤ 256) (hle : (fs.nodes k).dataOffset + o ≤ x)
    (hlt : x < (fs.nodes k).dataOffset + o + n) :
    InRegion fs k x := by
  have hcap := (h.file k hpos hk).dataCapacity
  exact ⟨by omega, by omega⟩

theorem Local.written (h : Layout fs) (hpos : 0 < k) (hk : k < fs.nodeCount) {o : ℕ}
    {buf : List UInt8} (ho : o + buf.length ≤ 256) : Local (some k) fs (written fs k o buf) := by
  have hstore : Local (some k) fs (store fs ((fs.nodes k).dataOffset + o) buf) :=
    Local.write h hk fun x hle hlt => h.inRegion_of_le hpos hk ho hle hlt
  have hsize := (h.file k hpos hk).size
  exact hstore.trans h (Local.size hstore.layout hpos hk (by omega))

theorem Local.seeded (h : Layout fs) (hpos : 0 < k) (hk : k < fs.nodeCount) {data : List UInt8}
    (hdata : data.length ≤ 256) : Local (some k) fs (seeded fs k data) := by
  have hstore : Local (some k) fs (store fs (fs.nodes k).dataOffset data) :=
    Local.write h hk fun x hle hlt => h.inRegion_of_le (o := 0) hpos hk (by omega) hle hlt
  exact hstore.trans h (Local.size hstore.layout hpos hk hdata)

/-- A call keeps the invariant and works on its own file only. -/
structure StepOk (op : Op ι) (s s' : State ι) : Prop where
  fs : Local (op.file s) s.fs s'.fs
  tables : ∀ t, TableOk s'.fs.nodeCount (s'.tables t)

/-- A call on a descriptor table, with the filesystem and the table it leaves behind. -/
theorem StepOk.onTable (h : Inv s) {op : Op ι} {t : ι} {α : Type} {x : Act Env Err α}
    {r : Except Err α} {env' : Env} (hx : x ⟨s.fs, s.tables t⟩ = (r, env'))
    (hfs : Local (op.file s) s.fs env'.fs) (htable : TableOk env'.fs.nodeCount env'.table) :
    StepOk op s (onTable t x s) := by
  have hstate : Vfs.onTable t x s = ⟨env'.fs, Function.update s.tables t env'.table⟩ := by
    rw [Vfs.onTable, hx]
  rw [hstate]
  refine ⟨hfs, fun t' => ?_⟩
  show TableOk _ (Function.update s.tables t env'.table t')
  rcases eq_or_ne t' t with rfl | hne
  · rw [Function.update_self]
    exact htable
  · rw [Function.update_of_ne hne]
    exact (h.tables t').mono hfs.count

/-- A call that leaves the state as it is. -/
theorem StepOk.unchanged (h : Inv s) {op : Op ι} {t : ι} {α : Type} {x : Act Env Err α}
    {r : Except Err α} (hx : x ⟨s.fs, s.tables t⟩ = (r, ⟨s.fs, s.tables t⟩)) :
    StepOk op s (Vfs.onTable t x s) :=
  StepOk.onTable h hx (Local.refl h.layout) (h.tables t)

theorem exec_open (h : Inv s) (t : ι) (path : CStr) (flags : UInt32) :
    StepOk (.open t path flags) s (exec (.open t path flags) s) := by
  rcases vfsOpen_cases (h.env t) path flags with ⟨rc, -, hrun⟩ |
    ⟨k, fs', -, hfound, ⟨-, rc, table', hrun, hsame⟩ | ⟨-, i, offset, -, hrun, hpos⟩⟩
  · exact StepOk.unchanged h hrun
  · have hlocal := hfound.toLocal h.layout
    rw [← hfound.pathNode_eq] at hlocal
    exact StepOk.onTable h hrun hlocal (((h.tables t).mono hlocal.count).sameOpen hsame)
  · have hlocal := hfound.toLocal h.layout
    have hopened : Local (some k) s.fs (if openFlags flags &&& oTrunc ≠ 0 then resize fs' k 0
        else fs') := by
      split_ifs with htrunc
      · exact hlocal.trans h.layout
          (Local.size hlocal.layout (hpos htrunc) hfound.lt (Nat.zero_le _))
      · exact hlocal
    have hcount : fs'.nodeCount ≤ (if openFlags flags &&& oTrunc ≠ 0 then resize fs' k 0
        else fs').nodeCount := by
      split_ifs
      · exact Nat.le_refl _
      · exact Nat.le_refl _
    refine StepOk.onTable h hrun (hfound.pathNode_eq ▸ hopened) ?_
    refine ((h.tables t).mono hopened.count).update i fun _ =>
      ⟨k, Nat.lt_of_lt_of_le hfound.lt hcount, rfl⟩

omit [DecidableEq ι] in
theorem file_eq_node {t : ι} {fd : Int} {i : Fin maxOpenFiles} (hi : fdGet (s.tables t) fd = some i)
    (hnode : (s.tables t i).node = some k) :
    ((fdGet (s.tables t) fd).bind fun i => (s.tables t i).node) = some k := by
  rw [hi, Option.bind_some, hnode]

theorem exec_read (h : Inv s) (t : ι) (fd : Int) (len : ℕ) :
    StepOk (.read t fd len) s (exec (.read t fd len) s) := by
  rcases vfsRead_cases (h.env t) fd len with ⟨rc, hrun⟩ |
    ⟨i, k, env', hi, hnode, hpos, hk, hrun, rfl | ⟨n, hn, rfl⟩⟩
  · exact StepOk.unchanged h hrun
  · exact StepOk.unchanged h hrun
  · have hfile : Op.file s (.read t fd len) = some k := file_eq_node hi hnode
    have hsize := (h.layout.file k hpos hk).size
    refine StepOk.onTable h hrun (hfile ▸ Local.read h.layout hk fun x hle hlt => ?_) ?_
    · exact h.layout.inRegion_of_le hpos hk (Nat.le_trans hn hsize) hle hlt
    · exact (h.tables t).update i fun _ => ⟨k, hk, hnode⟩

theorem exec_write (h : Inv s) (t : ι) (fd : Int) (buf : List UInt8) :
    StepOk (.write t fd buf) s (exec (.write t fd buf) s) := by
  rcases vfsWrite_cases (h.env t) fd buf with ⟨rc, table', hrun, htable, -⟩ | ⟨i, k, hw,
    hpos, hk, hrun⟩
  · exact StepOk.onTable h hrun (Local.refl h.layout) htable
  · have hfile : Op.file s (.write t fd buf) = some k := file_eq_node hw.slot hw.node
    have hfits := hw.fits
    rw [(h.layout.file k hpos hk).dataCapacity] at hfits
    refine StepOk.onTable h hrun (hfile ▸ Local.written h.layout hpos hk hfits) ?_
    exact (h.tables t).update i fun _ => ⟨k, hk, hw.node⟩

/-- Every call is a step on one file. -/
theorem exec_local (h : Inv s) (op : Op ι) : StepOk op s (exec op s) := by
  cases op with
  | create path =>
      rcases createFile_cases h.layout path with ⟨rc, hrun⟩ | ⟨k, fs', hrun, -, hfound⟩
      · rw [exec, hrun]
        exact ⟨Local.refl h.layout, h.tables⟩
      · have hlocal := hfound.toLocal h.layout
        have hfile : Op.file s (.create path) = some k := congrArg some hfound.pathNode_eq
        rw [exec, hrun]
        exact ⟨hfile ▸ hlocal, fun t => (h.tables t).mono hlocal.count⟩
  | seed path data =>
      rcases seedFile_cases h.layout path data with ⟨rc, -, hrun⟩ |
        ⟨k, fs', -, hpos, hfound, ⟨-, hrun⟩ | ⟨hrun, hdata⟩⟩
      · rw [exec, hrun]
        exact ⟨Local.refl h.layout, h.tables⟩
      · have hlocal := hfound.toLocal h.layout
        have hfile : Op.file s (.seed path data) = some k := congrArg some hfound.pathNode_eq
        rw [exec, hrun]
        exact ⟨hfile ▸ hlocal, fun t => (h.tables t).mono hlocal.count⟩
      · have hlocal := (hfound.toLocal h.layout).trans h.layout
          (Local.seeded (hfound.toLocal h.layout).layout hpos hfound.lt hdata)
        have hfile : Op.file s (.seed path data) = some k := congrArg some hfound.pathNode_eq
        rw [exec, hrun]
        exact ⟨hfile ▸ hlocal, fun t => (h.tables t).mono hlocal.count⟩
  | «open» t path flags => exact exec_open h t path flags
  | read t fd len => exact exec_read h t fd len
  | write t fd buf => exact exec_write h t fd buf
  | lseek t fd offset whence =>
      rcases vfsLseek_cases (h.env t) fd offset
        whence with ⟨rc, hrun, -⟩ | ⟨i, k, base, hs, hk, hrun⟩
      · exact StepOk.unchanged h hrun
      · exact StepOk.onTable h hrun (Local.refl h.layout)
          ((h.tables t).update i fun _ => ⟨k, hk, hs.node⟩)
  | dup t fd =>
      rcases vfsDup_cases ⟨s.fs, s.tables t⟩ fd with ⟨rc, hrun⟩ | ⟨i, j, hi, -, hrun⟩
      · exact StepOk.unchanged h hrun
      · exact StepOk.onTable h hrun (Local.refl h.layout) ((h.tables t).update j (h.tables t i))
  | close t fd =>
      rcases vfsClose_cases ⟨s.fs, s.tables t⟩ fd with hrun | ⟨i, -, hrun⟩
      · exact StepOk.unchanged h hrun
      · refine StepOk.onTable h hrun (Local.refl h.layout) ((h.tables t).update i fun hused => ?_)
        cases hused

/-! ## Runs -/

omit [DecidableEq ι] in
theorem StepOk.inv {op : Op ι} {s' : State ι} (h : StepOk op s s') : Inv s' :=
  ⟨h.fs.layout, h.tables⟩

omit [DecidableEq ι] in
theorem inv_start (fs : Ramfs) : Inv (start fs : State ι) where
  layout := layout_init fs
  tables t i hused := by cases hused

theorem inv_run (ops : List (Op ι)) : ∀ {s : State ι}, Inv s → Inv (run ops s) := by
  induction ops with
  | nil => exact fun h => h
  | cons op ops ih => exact fun h => ih (exec_local h op).inv

theorem Local.content_eq {j : Option ℕ} (h : Local j fs fs') (hfs : Layout fs)
    (hk : k < fs.nodeCount) (hne : j ≠ some k) : content fs' k = content fs k := by
  rw [content, content, h.node k hk hne]
  refine List.map_congr_left fun x hx => h.data k hk hne x ?_
  rw [List.mem_range'_1] at hx
  rw [hfs.inRegion_iff hk]
  rcases Nat.eq_zero_or_pos k with rfl | hpos
  · rw [hfs.root.size] at hx
    omega
  · have hsize := (hfs.file k hpos hk).size
    rw [(hfs.file k hpos hk).dataOffset] at hx
    omega

/-- In every run the filesystem is well formed, and every call works on one file only. -/
theorem files_isolated (fs : Ramfs) (ops : List (Op ι)) :
    WellFormed (run ops (start fs)) ∧
      ∀ op : Op ι,
        (∃ new, (exec op (run ops (start fs))).fs.touched = (run ops (start fs)).fs.touched ++ new ∧
          ∀ x ∈ new, ∃ k, op.file (run ops (start fs)) = some k ∧
            k < (exec op (run ops (start fs))).fs.nodeCount ∧
            InRegion (exec op (run ops (start fs))).fs k x) ∧
        ∀ k < (run ops (start fs)).fs.nodeCount, op.file (run ops (start fs)) ≠ some k →
          ((exec op (run ops (start fs))).fs.nodes k).size =
          ((run ops (start fs)).fs.nodes k).size ∧ content (exec op (run ops (start fs))).fs k =
          content (run ops (start fs)).fs k := by
  have hinv : Inv (run ops (start fs)) := inv_run ops (inv_start fs)
  refine ⟨hinv.wellFormed, fun op => ?_⟩
  have hlocal := (exec_local hinv op).fs
  refine ⟨hlocal.touched, fun k hk hne => ⟨?_, hlocal.content_eq hinv.layout hk hne⟩⟩
  rw [hlocal.node k hk hne]

end Mcsos.Vfs
