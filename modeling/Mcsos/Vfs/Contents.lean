import Mcsos.Vfs.Isolation
import Mcsos.Lib.Run

/-!
# The contents of files

A reference file is a list of bytes: a truncating open empties it, and a write puts its bytes at the
offset, after zeros where the file did not reach.

The code does not write these zeros, and truncating sets the size only: behind the end of a file are
the bytes from before.  `content_written` says when a write gives the contents of the reference file
all the same, and `contents_follow_reference` follows for runs.
-/

namespace Mcsos.Vfs

variable {ι : Type} [DecidableEq ι] {fs fs' : Ramfs} {s : State ι} {k o : ℕ} {path : CStr}
  {buf data l : List UInt8}

/-! ## Reference files -/

/-- A write of `buf` at `o`: it replaces the bytes there, and fills a gap before them with zeros. -/
def put (l : List UInt8) (o : ℕ) (buf : List UInt8) : List UInt8 :=
  (List.range (max l.length (o + buf.length))).map fun x =>
    if o ≤ x ∧ x < o + buf.length then buf.getD (x - o) 0 else l.getD x 0

/-- The reference files, one for each node. -/
abbrev Ref : Type := ℕ → List UInt8

/-- The reference files after a call.  Only successful calls change them. -/
def Ref.step (op : Op ι) (s : State ι) (ref : Ref) : Ref :=
  match op with
  | .seed path data =>
      match (seedFile path data s.fs).1 with
      | .ok _ => Function.update ref (pathNode s.fs path) data
      | .error _ => ref
  | .open t path flags =>
      match (vfsOpen path flags ⟨s.fs, s.tables t⟩).1 with
      | .ok _ => if flags &&& oTrunc ≠ 0 then Function.update ref (pathNode s.fs path) [] else ref
      | .error _ => ref
  | .write t fd buf =>
      match (vfsWrite fd buf ⟨s.fs, s.tables t⟩).1, fdGet (s.tables t) fd with
      | .ok _, some i =>
          match (s.tables t i).node with
          | some k =>
              Function.update ref k (put (ref k) (writeOffset (s.tables t i) (ref k).length) buf)
          | none => ref
      | _, _ => ref
  | _ => ref

/-- A call, on the filesystem and on the reference files. -/
def track (op : Op ι) (x : State ι × Ref) : State ι × Ref := (exec op x.1, Ref.step op x.1 x.2)

/-- The files have the bytes of the reference files, and there is no reference file without a
node. -/
structure Matches (fs : Ramfs) (ref : Ref) : Prop where
  content : ∀ k, 0 < k → k < fs.nodeCount → content fs k = ref k
  beyond : ∀ k, fs.nodeCount ≤ k → ref k = []

/-- The files have the bytes of the reference files, and these are what `mcs_vfs_read` returns. -/
def ContentsOk (x : State ι × Ref) : Prop :=
  Matches x.1.fs x.2 ∧
    ∀ t fd len bytes, (vfsRead fd len ⟨x.1.fs, x.1.tables t⟩).1 = .ok bytes →
      ∃ i k, fdGet (x.1.tables t) fd = some i ∧ (x.1.tables t i).node = some k ∧
        bytes = ((x.2 k).drop (x.1.tables t i).offset).take len

/-- The bytes between the end of the file and the place of a write are zero. -/
def GapZero (op : Op ι) (x : State ι × Ref) : Prop :=
  match op with
  | .write t fd buf => ∀ i k, Writes ⟨x.1.fs, x.1.tables t⟩ fd buf.length i k →
      ∀ y, (x.1.fs.nodes k).size ≤ y → y < writeOffset (x.1.tables t i) (x.1.fs.nodes k).size →
        x.1.fs.data ((x.1.fs.nodes k).dataOffset + y) = 0
  | _ => True

/-! ## Contents -/

theorem content_eq_map (fs : Ramfs) (k : ℕ) :
    content fs k =
      (List.range (fs.nodes k).size).map fun x => fs.data ((fs.nodes k).dataOffset + x) := by
  rw [content, List.range'_eq_map_range, List.map_map]
  rfl

theorem length_content (fs : Ramfs) (k : ℕ) : (content fs k).length = (fs.nodes k).size := by
  rw [content, List.length_map, List.length_range']

theorem getD_content (fs : Ramfs) (k x : ℕ) : (content fs k).getD x 0 =
    if x < (fs.nodes k).size then fs.data ((fs.nodes k).dataOffset + x) else 0 := by
  rw [content_eq_map]
  split_ifs with hx
  · rw [List.getD_eq_getElem _ _ (by simpa using hx)]
    simp
  · exact List.getD_eq_default _ _ (by simpa using hx)

/-- A write gives the contents of the reference file just when there are zeros in the gap. -/
theorem content_written (fs : Ramfs) (k o : ℕ) (buf : List UInt8) :
    content (written fs k o buf) k = put (content fs k) o buf ↔
      ∀ x, (fs.nodes k).size ≤ x → x < o → fs.data ((fs.nodes k).dataOffset + x) = 0 := by
  have hsize : ((written fs k o buf).nodes k).size = max (fs.nodes k).size (o + buf.length) := by
    rw [written, resize_node]
  have hoffset : ((written fs k o buf).nodes k).dataOffset = (fs.nodes k).dataOffset := by
    rw [written, resize_node]
    rfl
  have hdata : (written fs k o buf).data = overwrite fs.data ((fs.nodes k).dataOffset + o) buf :=
    rfl
  rw [content_eq_map, put, length_content, hsize, hoffset, hdata, List.map_inj_left]
  -- inside of the write both have the new bytes, elsewhere the old ones
  have hbyte : ∀ x, overwrite fs.data ((fs.nodes k).dataOffset + o) buf
      ((fs.nodes k).dataOffset + x) =
      if o ≤ x ∧ x < o + buf.length then buf.getD (x - o) 0
      else fs.data ((fs.nodes k).dataOffset + x) := by
    intro x
    split_ifs with hx
    · obtain ⟨y, rfl⟩ := Nat.exists_eq_add_of_le hx.1
      rw [← Nat.add_assoc, overwrite_of_inside (by omega), Nat.add_sub_cancel_left]
    · exact overwrite_of_outside (by omega)
  constructor
  · intro h x hle hlt
    have hx := h x (List.mem_range.mpr (by omega))
    rw [hbyte, if_neg (by omega), if_neg (by omega), getD_content, if_neg (by omega)] at hx
    exact hx
  · intro h x hx
    rw [List.mem_range] at hx
    rw [hbyte, getD_content]
    split_ifs with hin hold
    · rfl
    · rfl
    · exact h x (by omega) (by omega)

theorem content_seeded (fs : Ramfs) (k : ℕ) (data : List UInt8) :
    content (seeded fs k data) k = data := by
  have hsize : ((seeded fs k data).nodes k).size = data.length := by
    rw [seeded, resize_node]
  have hoffset : ((seeded fs k data).nodes k).dataOffset = (fs.nodes k).dataOffset := by
    rw [seeded, resize_node]
    rfl
  have hdata : (seeded fs k data).data = overwrite fs.data (fs.nodes k).dataOffset data := rfl
  rw [content_eq_map, hsize, hoffset, hdata]
  refine List.ext_getElem (by simp) fun x hx hx' => ?_
  rw [List.getElem_map, List.getElem_range, overwrite_of_inside hx', List.getD_eq_getElem _ _ hx']

theorem content_resize_zero (fs : Ramfs) (k : ℕ) : content (resize fs k 0) k = [] := by
  rw [content, resize_node]
  rfl

/-! ## Steps -/

variable {ref : Ref}

/-- The files that were there stay as they are. -/
theorem Found.content_eq (h : Found fs path k fs') {i : ℕ} (hi : i < fs.nodeCount) :
    content fs' i = content fs i := by
  cases h with
  | old => rfl
  | new =>
      rw [content, content, addFile_node_of_lt fs _ hi]
      rfl

theorem Matches.found (h : Matches fs ref) (hfound : Found fs path k fs') : Matches fs' ref := by
  have hold : ∀ i < fs.nodeCount, Vfs.content fs' i = Vfs.content fs i :=
    fun i hi => hfound.content_eq hi
  cases hfound with
  | old => exact h
  | @new rc leaf =>
      refine ⟨fun i hpos hi => ?_, fun i hi => h.beyond i (Nat.le_of_succ_le hi)⟩
      rcases Nat.lt_succ_iff_lt_or_eq.mp hi with hlt | rfl
      · exact (hold i hlt).trans (h.content i hpos hlt)
      · rw [h.beyond _ (Nat.le_refl _), Vfs.content, addFile_node]
        rfl

theorem Matches.same (h : Matches fs ref) (hsame : SameFiles fs fs') : Matches fs' ref := by
  refine ⟨fun i hpos hi => ?_, fun i hi => h.beyond i (hsame.nodeCount ▸ hi)⟩
  rw [hsame.content_eq]
  exact h.content i hpos (hsame.nodeCount ▸ hi)

/-- A step on one file, to which the reference file follows. -/
theorem Matches.update (h : Matches fs ref) (hfs : Layout fs) (hlocal : Local (some k) fs fs')
    (hcount : fs'.nodeCount = fs.nodeCount) (hk : k < fs.nodeCount) (hl : Vfs.content fs' k = l) :
    Matches fs' (Function.update ref k l) := by
  refine ⟨fun i hpos hi => ?_, fun i hi => ?_⟩
  · rcases eq_or_ne i k with rfl | hne
    · rw [Function.update_self, hl]
    · have hi' : i < fs.nodeCount := hcount ▸ hi
      rw [Function.update_of_ne hne, hlocal.content_eq hfs hi' fun heq =>
        hne (Option.some.inj heq).symm, h.content i hpos hi']
  · rw [Function.update_of_ne (by omega)]
    exact h.beyond i (hcount ▸ hi)

/-- The default for the kind of access does not touch the flag for truncation. -/
theorem openFlags_trunc (flags : UInt32) : openFlags flags &&& oTrunc = flags &&& oTrunc := by
  unfold openFlags
  split_ifs
  · rw [← UInt32.toBitVec_inj]
    show (flags.toBitVec ||| oRdonly.toBitVec) &&& oTrunc.toBitVec =
      flags.toBitVec &&& oTrunc.toBitVec
    have hdisjoint : oRdonly.toBitVec &&& oTrunc.toBitVec = 0#32 := by decide
    rw [BitVec.and_or_distrib_right, hdisjoint, BitVec.or_zero]
  · rfl

theorem matches_open (hinv : Inv s) (h : Matches s.fs ref) (t : ι) (path : CStr) (flags : UInt32) :
    Matches (exec (.open t path flags) s).fs (Ref.step (.open t path flags) s ref) := by
  rcases vfsOpen_cases (hinv.env t) path flags with ⟨rc, -, hrun⟩ |
    ⟨k, fs', -, hfound, ⟨-, rc, table', hrun, -⟩ | ⟨-, i, offset, -, hrun, hpos⟩⟩
  · simp only [exec, Ref.step, onTable, hrun]
    exact h
  · simp only [exec, Ref.step, onTable, hrun]
    exact h.found hfound
  · simp only [exec, Ref.step, onTable, hrun, hfound.pathNode_eq, openFlags_trunc] at hpos ⊢
    split_ifs with htrunc
    · have hlayout := (hfound.toLocal hinv.layout).layout
      exact (h.found hfound).update hlayout
        (Local.size hlayout (hpos htrunc) hfound.lt (Nat.zero_le _)) rfl
        hfound.lt (content_resize_zero fs' k)
    · exact h.found hfound

theorem matches_seed (hinv : Inv s) (h : Matches s.fs ref) (path : CStr) (data : List UInt8) :
    Matches (exec (.seed path data) s).fs (Ref.step (.seed path data) s ref) := by
  rcases seedFile_cases hinv.layout path data with ⟨rc, -, hrun⟩ |
    ⟨k, fs', -, hpos, hfound, ⟨-, hrun⟩ | ⟨hrun, hdata⟩⟩
  · simp only [exec, Ref.step, hrun]
    exact h
  · simp only [exec, Ref.step, hrun]
    exact h.found hfound
  · simp only [exec, Ref.step, hrun, hfound.pathNode_eq]
    have hlayout := (hfound.toLocal hinv.layout).layout
    exact (h.found hfound).update hlayout (Local.seeded hlayout hpos hfound.lt hdata) rfl hfound.lt
      (content_seeded fs' k data)

/-- A write follows the reference file just when there are zeros in the gap. -/
theorem matches_write (hinv : Inv s) (h : Matches s.fs ref) (t : ι) (fd : Int) (buf : List UInt8) :
    Matches (exec (.write t fd buf) s).fs (Ref.step (.write t fd buf) s ref) ↔
      GapZero (.write t fd buf) (s, ref) := by
  rcases vfsWrite_cases (hinv.env t) fd buf with ⟨rc, table', hrun, -, hno⟩ | ⟨i, k, hw,
    hpos, hk, hrun⟩
  · simp only [exec, Ref.step, onTable, hrun]
    exact ⟨fun _ i k hw => absurd hw (hno i k), fun _ => h⟩
  · have hlen : (ref k).length = (s.fs.nodes k).size := by
      rw [← h.content k hpos hk, length_content]
    have hslot : fdGet (s.tables t) fd = some i := hw.slot
    have hnode : (s.tables t i).node = some k := hw.node
    have hfits := hw.fits
    simp only [exec, Ref.step, onTable, hrun, hslot, hnode, hlen]
    rw [(hinv.layout.file k hpos hk).dataCapacity] at hfits
    constructor
    · intro hmatches i' k' hw' y hle hlt
      obtain ⟨rfl, rfl⟩ := hw.unique hw'
      have hput := hmatches.content k' hpos hk
      rw [Function.update_self, ← h.content k' hpos hk] at hput
      exact (content_written ..).mp hput y hle hlt
    · intro hgap
      refine h.update hinv.layout (Local.written hinv.layout hpos hk hfits) rfl hk ?_
      rw [← h.content k hpos hk]
      exact (content_written ..).mpr (hgap i k hw)

/-- A step follows the reference files just when it meets the condition. -/
theorem matches_track (hinv : Inv s) (h : Matches s.fs ref) (op : Op ι) :
    Matches (exec op s).fs (Ref.step op s ref) ↔ GapZero op (s, ref) := by
  cases op with
  | create path =>
      refine iff_of_true ?_ trivial
      rcases createFile_cases hinv.layout path with ⟨rc, hrun⟩ | ⟨k, fs', hrun, -, hfound⟩
      · simp only [exec, Ref.step, hrun]
        exact h
      · simp only [exec, Ref.step, hrun]
        exact h.found hfound
  | seed path data => exact iff_of_true (matches_seed hinv h path data) trivial
  | «open» t path flags => exact iff_of_true (matches_open hinv h t path flags) trivial
  | write t fd buf => exact matches_write hinv h t fd buf
  | read t fd len => exact iff_of_true (h.same (vfsRead_same (hinv.env t) fd len)) trivial
  | lseek t fd offset whence =>
      exact iff_of_true (h.same (vfsLseek_same (hinv.env t) fd offset whence)) trivial
  | dup t fd => exact iff_of_true (h.same (vfsDup_same ⟨s.fs, s.tables t⟩ fd)) trivial
  | close t fd => exact iff_of_true (h.same (vfsClose_same ⟨s.fs, s.tables t⟩ fd)) trivial

/-! ## Runs -/

omit [DecidableEq ι] in
theorem Matches.contentsOk (hinv : Inv s) (h : Matches s.fs ref) : ContentsOk (s, ref) := by
  refine ⟨h, fun t fd len bytes hread => ?_⟩
  rcases vfsRead_cases (hinv.env t) fd len with ⟨rc, hrun⟩ | ⟨i, k, env', hslot, hnode, hpos,
    hk, hrun, -⟩
  · rw [hrun] at hread
    cases hread
  · rw [hrun] at hread
    refine ⟨i, k, hslot, hnode, ?_⟩
    show bytes = ((ref k).drop (s.tables t i).offset).take len
    rw [← h.content k hpos hk]
    exact (Except.ok.inj hread).symm

omit [DecidableEq ι] in
theorem matches_start (fs : Ramfs) : Matches (start fs : State ι).fs fun _ => [] where
  content _ hpos hk := absurd hk (Nat.not_lt.mpr hpos)
  beyond _ _ := rfl

/-- In every run: the files have the bytes of the reference files all along just when every write
finds zeros between the end of the file and its offset. -/
theorem contents_follow_reference (fs : Ramfs) (ops : List (Op ι)) :
    AllStates track ContentsOk ops (start fs, fun _ => []) ↔
      AllSteps track GapZero ops (start fs, fun _ => []) := by
  have hstart : Inv (start fs : State ι) := inv_start fs
  constructor
  · apply AllStates.steps (I := fun x : State ι × Ref => Inv x.1)
    · exact fun op x hinv hx hx' => (matches_track hinv hx.1 op).mp hx'.1
    · exact fun op x hinv _ => (exec_local hinv op).inv
    · exact hstart
  · intro hsteps
    apply AllStates.mono (I := fun x : State ι × Ref => Inv x.1 ∧ Matches x.1.fs x.2)
    · exact fun x hx => Matches.contentsOk hx.1 hx.2
    · apply AllSteps.invariant (C := GapZero) _ ⟨hstart, matches_start fs⟩ hsteps
      exact fun op x hx hgap => ⟨(exec_local hx.1 op).inv, (matches_track hx.1 hx.2 op).mpr hgap⟩

/-- An empty structure, before `mcs_ramfs_init`. -/
def blankRamfs : Ramfs := ⟨fun _ => ⟨false, 0, 0, .file, Bytes.zero, 0, 0, 0⟩, 0, fun _ => 0, 0, []⟩

/-- The path `/f`. -/
def pathF : CStr := ⟨[0x2f, 0x66], by decide⟩

/-- A file with the bytes `abc` is truncated, and `x` is written at offset 2. -/
def staleOps : List (Op Unit) :=
  [.open () pathF (oCreat ||| oRdwr), .write () 0 [0x61, 0x62, 0x63], .open () pathF
    (oRdwr ||| oTrunc), .lseek () 1 2 0, .write () 1 [0x78], .lseek () 1 0 0]

/-- The bytes `ab` come back. -/
theorem truncated_bytes_come_back :
    (vfsRead 1 3 ⟨(run staleOps (start blankRamfs)).fs,
      (run staleOps (start blankRamfs)).tables ()⟩).1 =
        .ok [0x61, 0x62, 0x78] ∧
      (staleOps.foldl (fun x op => track op x) (start blankRamfs, fun _ => [])).2 1 = [0, 0, 0x78] ∧
      ¬ AllStates track ContentsOk staleOps (start blankRamfs, fun _ => []) := by
  refine ⟨by decide, by decide, fun hall => ?_⟩
  have hfile := hall.last.1.content 1 (by decide) (by decide)
  exact absurd hfile (by decide)

end Mcsos.Vfs
