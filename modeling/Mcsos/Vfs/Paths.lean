import Mcsos.Vfs.Contents

/-!
# Which paths there are

The filesystem has one directory, so a path leads to a node only if it is the separator alone, or
the separator followed by the name of a file.  `mcs_ramfs_lookup` and `mcs_split_parent_leaf` go
through a path with loops of their own over its characters; `lookupScan` and `splitScan` are these
loops, and they are the recursions over the parts of the path in `lookup` and `splitParentLeaf`
(`lookupScan_eq`, `splitScan_eq`).

What a path leads to does not change later: a file keeps its name, and the names of the files stay
different.  A new file changes the answer for paths through it from `MCS_ENOENT` to `MCS_ENOTDIR`,
since a file is no directory.
-/

namespace Mcsos.Vfs

open Act

variable {fs fs' fs'' : Ramfs} {path : CStr} {k : ℕ} {name rest : List UInt8}

/-! ### The loops over the characters -/

/-- `while (*next != '/' && *next != '\0') next++`: what is passed, and what is left from `next`
on. -/
def scanSegment (seg : List UInt8) : List UInt8 × List UInt8 :=
  (seg.takeWhile (· ≠ slash), seg.dropWhile (· ≠ slash))

/-- The rest of a path behind the next separator is shorter. -/
theorem length_of_scanSegment {seg next : List UInt8} {c : UInt8}
    (h : (scanSegment seg).2 = c :: next) :
    next.length < seg.length := by
  have hle : (scanSegment seg).2.length ≤ seg.length := (List.dropWhile_suffix _).sublist.length_le
  rw [h, List.length_cons] at hle
  omega

/-- The loop of `mcs_ramfs_lookup`, with `seg` at a character of the path. -/
def lookupScan (fs : Ramfs) (cur : ℕ) (seg : List UInt8) : Except Err ℕ :=
  if seg = [] then .error .einval
  else if BadLength (scanSegment seg).1 then .error .einval
  else
    match findChild fs (fs.nodes cur).id (scanSegment seg).1 with
    | .error rc => .error rc
    | .ok cur =>
        match _h : (scanSegment seg).2 with
        | [] => .ok cur
        | _ :: next => if (fs.nodes cur).type ≠ .dir then .error .enotdir
            else lookupScan fs cur next
termination_by seg.length
decreasing_by exact length_of_scanSegment _h

/-- The loop of `mcs_split_parent_leaf`, with `seg` at a character of the path. -/
def splitScan (fs : Ramfs) (cur : ℕ) (seg : List UInt8) : Except Err (ℕ × List UInt8) :=
  if BadLength (scanSegment seg).1 then .error .einval
  else
    match _h : (scanSegment seg).2 with
    | [] => .ok (cur, (scanSegment seg).1)
    | _ :: next =>
        match findChild fs (fs.nodes cur).id (scanSegment seg).1 with
        | .error rc => .error rc
        | .ok cur => if (fs.nodes cur).type ≠ .dir then .error .enotdir else splitScan fs cur next
termination_by seg.length
decreasing_by exact length_of_scanSegment _h

theorem segments_ne_nil (path : List UInt8) : segments path ≠ [] := by
  cases path with
  | nil => exact List.cons_ne_nil _ _
  | cons c path =>
      unfold segments
      by_cases hc : c = slash
      · rw [if_pos hc]
        exact List.cons_ne_nil _ _
      · rw [if_neg hc]
        cases segments path with
        | nil => exact List.cons_ne_nil _ _
        | cons seg rest => exact List.cons_ne_nil _ _

theorem segments_of_notMem (h : slash ∉ name) : segments name = [name] := by
  induction name with
  | nil => rfl
  | cons c name ih =>
      obtain ⟨hc, hname⟩ := not_or.mp fun hin => h (List.mem_cons.mpr hin)
      rw [segments, if_neg (Ne.symm hc), ih hname]

theorem segments_append (h : slash ∉ name) (rest : List UInt8) :
    segments (name ++ slash :: rest) = name :: segments rest := by
  induction name with
  | nil => rw [List.nil_append, segments, if_pos rfl]
  | cons c name ih =>
      obtain ⟨hc, hname⟩ := not_or.mp fun hin => h (List.mem_cons.mpr hin)
      rw [List.cons_append, segments, if_neg (Ne.symm hc), ih hname]

/-- A path either has no separator, or a first one. -/
theorem scanSegment_cases (seg : List UInt8) :
    (slash ∉ seg ∧ scanSegment seg = (seg, [])) ∨
      ∃ name next, slash ∉ name ∧ seg = name ++ slash :: next ∧ scanSegment seg =
        (name, slash :: next) := by
  induction seg with
  | nil => exact Or.inl ⟨List.not_mem_nil, rfl⟩
  | cons c seg ih =>
      by_cases hc : c = slash
      · refine Or.inr ⟨[], seg, List.not_mem_nil, by rw [hc, List.nil_append], ?_⟩
        simp [scanSegment, hc]
      · rcases ih with ⟨hno, hscan⟩ | ⟨name, next, hno, hseg, hscan⟩
        · refine Or.inl ⟨fun hin => ?_, ?_⟩
          · rcases List.mem_cons.mp hin with heq | hin
            · exact hc heq.symm
            · exact hno hin
          · obtain ⟨htake, hdrop⟩ := Prod.mk.inj hscan
            rw [scanSegment, List.takeWhile_cons_of_pos (by simpa using hc),
              List.dropWhile_cons_of_pos (by simpa using hc), htake, hdrop]
        · refine Or.inr ⟨c :: name, next, fun hin => ?_, by rw [hseg, List.cons_append], ?_⟩
          · rcases List.mem_cons.mp hin with heq | hin
            · exact hc heq.symm
            · exact hno hin
          · obtain ⟨htake, hdrop⟩ := Prod.mk.inj hscan
            rw [scanSegment, List.takeWhile_cons_of_pos (by simpa using hc),
              List.dropWhile_cons_of_pos (by simpa using hc), htake, hdrop]

/-- The loop of `mcs_ramfs_lookup` looks up the parts of the path one after the other. -/
theorem lookupScan_eq (fs : Ramfs) (cur : ℕ) (seg : List UInt8) :
    lookupScan fs cur seg = lookupFrom fs cur (segments seg) := by
  induction hlen : seg.length using Nat.strong_induction_on generalizing cur seg with
  | _ len ih =>
      unfold lookupScan
      by_cases hempty : seg = []
      · rw [if_pos hempty, hempty]
        rfl
      rw [if_neg hempty]
      rcases scanSegment_cases seg with ⟨hno, hscan⟩ | ⟨name, next, hno, hseg, hscan⟩
      · rw [segments_of_notMem hno, lookupFrom, hscan]
        by_cases hbad : BadLength seg
        · rw [if_pos hbad, if_pos hbad]
        · rw [if_neg hbad, if_neg hbad]
          cases findChild fs (fs.nodes cur).id seg <;> rfl
      · obtain ⟨first, others, hrest⟩ := List.exists_cons_of_ne_nil (segments_ne_nil next)
        have hshort : next.length < len := hlen ▸ length_of_scanSegment (by rw [hscan])
        rw [hseg, segments_append hno, ← hseg, hrest, lookupFrom, descend, hscan]
        by_cases hbad : BadLength name
        · rw [if_pos hbad, if_pos hbad]
        rw [if_neg hbad, if_neg hbad]
        cases findChild fs (fs.nodes cur).id name with
        | error rc => rfl
        | ok child =>
            by_cases hdir : (fs.nodes child).type ≠ .dir
            · simp only [if_pos hdir]
            · simp only [if_neg hdir]
              rw [ih next.length hshort child next rfl, hrest]

/-- The loop of `mcs_split_parent_leaf` goes through the same parts, up to the last one. -/
theorem splitScan_eq (fs : Ramfs) (cur : ℕ) (seg : List UInt8) :
    splitScan fs cur seg = splitFrom fs cur (segments seg) := by
  induction hlen : seg.length using Nat.strong_induction_on generalizing cur seg with
  | _ len ih =>
      unfold splitScan
      rcases scanSegment_cases seg with ⟨hno, hscan⟩ | ⟨name, next, hno, hseg, hscan⟩
      · rw [segments_of_notMem hno, splitFrom, hscan]
      · obtain ⟨first, others, hrest⟩ := List.exists_cons_of_ne_nil (segments_ne_nil next)
        have hshort : next.length < len := hlen ▸ length_of_scanSegment (by rw [hscan])
        rw [hseg, segments_append hno, ← hseg, hrest, splitFrom, descend, hscan]
        by_cases hbad : BadLength name
        · rw [if_pos hbad, if_pos hbad]
        rw [if_neg hbad, if_neg hbad]
        cases findChild fs (fs.nodes cur).id name with
        | error rc => rfl
        | ok child =>
            by_cases hdir : (fs.nodes child).type ≠ .dir
            · simp only [if_pos hdir]
            · simp only [if_neg hdir]
              rw [ih next.length hshort child next rfl, hrest]

/-! ### The shapes of paths -/

/-- A name that a file can have: 1 to 31 characters, none of them a separator. -/
structure FlatName (name : List UInt8) : Prop where
  length : ¬ BadLength name
  flat : slash ∉ name

/-- The shapes of paths: the root, a file, a path that goes on behind the name of a file, and the
paths that are refused for their form. -/
inductive Shape (path : CStr) : Prop where
  | root (hbytes : path.bytes = [slash])
  | file (name : List UInt8) (hname : FlatName name) (hbytes : path.bytes = slash :: name)
  | through (name rest : List UInt8) (hname : FlatName name)
      (hbytes : path.bytes = slash :: (name ++ slash :: rest))
      (hlength : path.length < maxPath)
  | refused (rc : Err) (hlookup : ∀ fs, lookup fs path = .error rc)
      (hsplit : ∀ fs, splitParentLeaf fs path = .error rc)

/-- A path with a good beginning is resolved part by part. -/
theorem lookup_of_bytes (fs : Ramfs) (hbytes : path.bytes = slash :: rest) (hrest : rest ≠ [])
    (hlength : path.length < maxPath) : lookup fs path = lookupFrom fs 0 (segments rest) := by
  have hfirst : path.char 0 = slash := by rw [CStr.char, hbytes, List.getD_cons_zero]
  have hlong : 1 < path.length := by
    rw [CStr.length, hbytes, List.length_cons]
    exact Nat.succ_lt_succ (List.length_pos_iff.mpr hrest)
  rw [lookup, if_neg (not_not.mpr hfirst), if_neg (Nat.not_le.mpr hlength),
    if_neg (path.char_ne_zero hlong), hbytes, List.drop_one, List.tail_cons]

theorem splitParentLeaf_of_bytes (fs : Ramfs) (hbytes : path.bytes = slash :: rest)
    (hrest : rest ≠ []) (hlength : path.length < maxPath) :
    splitParentLeaf fs path = splitFrom fs 0 (segments rest) := by
  have hfirst : path.char 0 = slash := by rw [CStr.char, hbytes, List.getD_cons_zero]
  have hlong : 1 < path.length := by
    rw [CStr.length, hbytes, List.length_cons]
    exact Nat.succ_lt_succ (List.length_pos_iff.mpr hrest)
  rw [splitParentLeaf, if_neg (not_not.mpr hfirst), if_neg (path.char_ne_zero hlong),
    if_neg (Nat.not_le.mpr hlength), hbytes, List.drop_one, List.tail_cons]

/-- A bad first part ends both loops. -/
theorem segments_bad (fs : Ramfs) {segs : List (List UInt8)} (hbad : BadLength name) :
    lookupFrom fs 0 (name :: segs) = .error .einval ∧ splitFrom fs 0 (name :: segs) =
      .error .einval := by
  cases segs with
  | nil => rw [lookupFrom, splitFrom, if_pos hbad, if_pos hbad]; exact ⟨rfl, rfl⟩
  | cons next segs => rw [lookupFrom, splitFrom, descend, if_pos hbad]; exact ⟨rfl, rfl⟩

theorem shape (path : CStr) : Shape path := by
  by_cases hfirst : path.char 0 = slash
  case neg =>
    refine .refused .einval (fun fs => ?_) fun fs => ?_
    · rw [lookup, if_pos hfirst]
    · rw [splitParentLeaf, if_pos hfirst]
  obtain ⟨rest, hbytes⟩ : ∃ rest, path.bytes = slash :: rest := by
    cases hpath : path.bytes with
    | nil =>
        rw [CStr.char, hpath] at hfirst
        exact absurd hfirst (by decide)
    | cons c rest =>
        rw [CStr.char, hpath, List.getD_cons_zero] at hfirst
        exact ⟨rest, by rw [hfirst]⟩
  by_cases hempty : rest = []
  · exact .root (by rw [hbytes, hempty])
  by_cases hlength : path.length < maxPath
  case neg =>
    have hlong : 1 < path.length := by
      rw [CStr.length, hbytes, List.length_cons]
      exact Nat.succ_lt_succ (List.length_pos_iff.mpr hempty)
    refine .refused .enametoolong (fun fs => ?_) fun fs => ?_
    · rw [lookup, if_neg (not_not.mpr hfirst), if_pos (Nat.le_of_not_lt hlength)]
    · rw [splitParentLeaf, if_neg (not_not.mpr hfirst), if_neg (path.char_ne_zero hlong),
        if_pos (Nat.le_of_not_lt hlength)]
  have hresolve := fun fs => lookup_of_bytes fs hbytes hempty hlength
  have hsplit := fun fs => splitParentLeaf_of_bytes fs hbytes hempty hlength
  rcases scanSegment_cases rest with ⟨hno, -⟩ | ⟨name, next, hno, hrest, -⟩
  · by_cases hbad : BadLength rest
    · rw [segments_of_notMem hno] at hresolve hsplit
      exact .refused .einval (fun fs => (hresolve fs).trans (segments_bad fs hbad).1)
        fun fs => (hsplit fs).trans (segments_bad fs hbad).2
    · exact .file rest ⟨hbad, hno⟩ hbytes
  · by_cases hbad : BadLength name
    · rw [hrest, segments_append hno] at hresolve hsplit
      exact .refused .einval (fun fs => (hresolve fs).trans (segments_bad fs hbad).1)
        fun fs => (hsplit fs).trans (segments_bad fs hbad).2
    · exact .through name next ⟨hbad, hno⟩ (by rw [hbytes, hrest]) hlength

/-! ### Looking up -/

theorem lookup_root (fs : Ramfs) (hbytes : path.bytes = [slash]) : lookup fs path = .ok 0 := by
  have hfirst : path.char 0 = slash := by rw [CStr.char, hbytes, List.getD_cons_zero]
  have hlength : path.length = 1 := by rw [CStr.length, hbytes, List.length_singleton]
  have hend : path.char 1 = 0 := path.char_of_le (Nat.le_of_eq hlength)
  have hshort : ¬ maxPath ≤ path.length := by
    rw [hlength]
    decide
  rw [lookup, if_neg (not_not.mpr hfirst), if_neg hshort, if_pos hend]

/-- A path of a file is never too long. -/
theorem FlatName.path_length (hname : FlatName name) (hbytes : path.bytes = slash :: name) :
    name ≠ [] ∧ path.length < maxPath := by
  have hgood : ¬ (name.length = 0 ∨ 32 ≤ name.length) := hname.length
  refine ⟨fun hnil => hgood (Or.inl (by rw [hnil, List.length_nil])), ?_⟩
  rw [CStr.length, hbytes, List.length_cons]
  show name.length + 1 < 128
  omega

theorem lookup_file (h : Layout fs) (hname : FlatName name) (hbytes : path.bytes = slash :: name) :
    lookup fs path = findChild fs 0 name := by
  obtain ⟨hne, hlength⟩ := hname.path_length hbytes
  rw [lookup_of_bytes fs hbytes hne hlength, segments_of_notMem hname.flat, lookupFrom,
    if_neg hname.length, h.root.id]

theorem splitParentLeaf_file (fs : Ramfs) (hname : FlatName name)
    (hbytes : path.bytes = slash :: name) :
    splitParentLeaf fs path = .ok (0, name) := by
  obtain ⟨hne, hlength⟩ := hname.path_length hbytes
  rw [splitParentLeaf_of_bytes fs hbytes hne hlength, segments_of_notMem hname.flat, splitFrom,
    if_neg hname.length]

/-- A search ends with a node of that name, or it finds nothing. -/
theorem findChild_cases (fs : Ramfs) (parent : ℕ) (hname : ¬ BadLength name) :
    (∃ i, findChild fs parent name = .ok i ∧ streqN name (fs.nodes i).name = true) ∨
      findChild fs parent name = .error .enoent := by
  unfold findChild
  rw [if_neg hname]
  cases hsearch : (List.range fs.nodeCount).find? fun i =>
      (fs.nodes i).used && (fs.nodes i).parent == parent && streqN name (fs.nodes i).name with
  | none => exact Or.inr rfl
  | some i =>
      have htest := List.find?_some hsearch
      rw [Bool.and_eq_true] at htest
      exact Or.inl ⟨i, rfl, htest.2⟩

theorem Layout.name_injective (h : Layout fs) {i j : ℕ} (hi : i < fs.nodeCount)
    (hj : j < fs.nodeCount) (heq : nameOf fs i = nameOf fs j) : i = j := by
  rcases Nat.lt_trichotomy i j with hlt | heq' | hgt
  · exact absurd heq (h.names i j hlt hj)
  · exact heq'
  · exact absurd heq.symm (h.names j i hgt hi)

/-- The children of the root are the files, each under its name. -/
theorem findChild_eq_ok_iff (h : Layout fs) (hname : FlatName name) (hzero : 0 ∉ name) :
    findChild fs 0 name = .ok k ↔ 0 < k ∧ k < fs.nodeCount ∧ (nameOf fs k).bytes = name := by
  have hmatch : ∀ i, streqN name (fs.nodes i).name = true ↔ (nameOf fs i).bytes = name := fun i =>
    (streqN_iff hname.length hzero _).trans
      ⟨fun heq => congrArg CStr.bytes heq, fun heq => CStr.ext heq⟩
  have hfile : ∀ i, (nameOf fs i).bytes = name → 0 < i := by
    intro i hi
    refine Nat.pos_of_ne_zero fun hzero => hname.flat ?_
    rw [← hi, hzero, h.rootNamed]
    exact List.mem_singleton_self slash
  rcases findChild_cases fs 0 hname.length with ⟨i, hfind, htest⟩ | hfind
  · have hi := findChild_eq_ok hfind
    have hbytes := (hmatch i).mp htest
    rw [hfind]
    constructor
    · intro heq
      obtain rfl := Except.ok.inj heq
      exact ⟨hfile i hbytes, hi, hbytes⟩
    · rintro ⟨-, hk, hbytes'⟩
      rw [h.name_injective hi hk (CStr.ext (hbytes.trans hbytes'.symm))]
  · rw [hfind]
    constructor
    · intro heq
      cases heq
    rintro ⟨-, hk, hbytes⟩
    have hno :=
      streqN_of_findChild_eq_error hname.length hfind hk (h.used_parent hk).1 (h.used_parent hk).2
    rw [(hmatch k).mpr hbytes] at hno
    cases hno

/-- Why a path is refused that goes on behind a name: the name is that of a file, or the search for
it failed. -/
def behind : Except Err ℕ → Err
  | .ok _ => .enotdir
  | .error rc => rc

/-- A file is no directory. -/
theorem descend_root (h : Layout fs) (hname : FlatName name) (hzero : 0 ∉ name) :
    descend fs 0 name = .error (behind (findChild fs 0 name)) := by
  unfold descend
  rw [if_neg hname.length, h.root.id]
  cases hfind : findChild fs 0 name with
  | ok k =>
      obtain ⟨hpos, hk, -⟩ := (findChild_eq_ok_iff h hname hzero).mp hfind
      have hfile : (fs.nodes k).type ≠ .dir :=
        fun hdir => Nat.ne_of_gt hpos ((h.type_eq_dir hk).mp hdir)
      dsimp only
      rw [if_pos hfile, behind]
  | error rc => rfl

theorem zero_notMem_of_bytes (hbytes : path.bytes = slash :: (name ++ rest)) :
    0 ∉ name := fun hin =>
  path.nonzero (hbytes ▸ List.mem_cons_of_mem _ (List.mem_append_left _ hin))

theorem zero_notMem_of_file (hbytes : path.bytes = slash :: name) : 0 ∉ name := fun hin =>
  path.nonzero (hbytes ▸ List.mem_cons_of_mem _ hin)

/-- A path that goes on behind the name of a file. -/
theorem lookup_through (h : Layout fs) (hname : FlatName name)
    (hbytes : path.bytes = slash :: (name ++ slash :: rest))
    (hlength : path.length < maxPath) :
    lookup fs path = .error (behind (findChild fs 0 name)) ∧
      splitParentLeaf fs path = .error (behind (findChild fs 0 name)) := by
  have hne : name ++ slash :: rest ≠ [] :=
    List.append_ne_nil_of_right_ne_nil _ (List.cons_ne_nil _ _)
  have hdescend := descend_root h hname (zero_notMem_of_bytes hbytes)
  obtain ⟨first, others, hrest⟩ := List.exists_cons_of_ne_nil (segments_ne_nil rest)
  rw [lookup_of_bytes fs hbytes hne hlength, splitParentLeaf_of_bytes fs hbytes hne hlength,
    segments_append hname.flat, hrest, lookupFrom, splitFrom, hdescend]
  exact ⟨rfl, rfl⟩

/-- The names of the files are flat. -/
def Named (fs : Ramfs) : Prop := ∀ i, 0 < i → i < fs.nodeCount → FlatName (nameOf fs i).bytes

/-- Exactly the paths of the root and of the files lead to a node. -/
theorem lookup_eq_ok_iff (h : Layout fs) (hnamed : Named fs) (path : CStr) (k : ℕ) :
    lookup fs path = .ok k ↔ (path.bytes = [slash] ∧ k = 0) ∨
      (0 < k ∧ k < fs.nodeCount ∧ path.bytes = slash :: (nameOf fs k).bytes) := by
  constructor
  · intro hlookup
    cases shape path with
    | root hbytes =>
        rw [lookup_root fs hbytes] at hlookup
        exact Or.inl ⟨hbytes, (Except.ok.inj hlookup).symm⟩
    | file name hname hbytes =>
        have hzero : 0 ∉ name := zero_notMem_of_file hbytes
        rw [lookup_file h hname hbytes] at hlookup
        obtain ⟨hpos, hk, hfile⟩ := (findChild_eq_ok_iff h hname hzero).mp hlookup
        exact Or.inr ⟨hpos, hk, by rw [hbytes, hfile]⟩
    | through name rest hname hbytes hlength =>
        rw [(lookup_through h hname hbytes hlength).1] at hlookup
        cases hlookup
    | refused rc hrefused =>
        rw [hrefused] at hlookup
        cases hlookup
  · rintro (⟨hbytes, rfl⟩ | ⟨hpos, hk, hbytes⟩)
    · exact lookup_root fs hbytes
    · rw [lookup_file h (hnamed k hpos hk) hbytes]
      exact (findChild_eq_ok_iff h (hnamed k hpos hk) (nameOf fs k).nonzero).mpr ⟨hpos, hk, rfl⟩

/-! ### Creating files -/

/-- `mcs_ramfs_create_file` for the path of a file: the file that is there, or a new one if there is
room. -/
theorem createFile_file (h : Layout fs) (hname : FlatName name)
    (hbytes : path.bytes = slash :: name) :
    createFile path fs =
      match findChild fs 0 name with
      | .ok k => (.ok k, fs)
      | .error _ => if fs.nodeCount ≤ 32 then (.ok fs.nodeCount, addFile fs name)
          else (.error .enospc, fs) := by
  have hzero : 0 ∉ name := zero_notMem_of_file hbytes
  unfold createFile
  rw [get_bind_apply, lookup_file h hname hbytes]
  cases hfind : findChild fs 0 name with
  | ok k =>
      obtain ⟨hpos, hk, -⟩ := (findChild_eq_ok_iff h hname hzero).mp hfind
      have hfile : (fs.nodes k).type = .file := (h.type_eq_file hk).mpr hpos
      dsimp only
      rw [failIf_bind_of_not (not_not.mpr hfile)]
      rfl
  | error rc =>
      dsimp only
      rw [splitParentLeaf_file fs hname hbytes]
      dsimp only
      rw [failIf_bind_of_not (not_not.mpr h.root.type), h.root.id, allocNode_apply h hname.length]

/-- For every other path it fails. -/
theorem createFile_other (h : Layout fs)
    (hother : ∀ name, FlatName name → path.bytes ≠ slash :: name) :
    ∃ rc, createFile path fs = (.error rc, fs) := by
  have hsplit : ∀ {rc}, lookup fs path = .error rc → splitParentLeaf fs path = .error rc →
      createFile path fs = (.error rc, fs) := by
    intro rc hlookup hsplit
    unfold createFile
    rw [get_bind_apply, hlookup]
    dsimp only
    rw [hsplit]
    rfl
  cases shape path with
  | root hbytes =>
      refine ⟨.eisdir, ?_⟩
      have hdir : (fs.nodes 0).type ≠ .file := by
        rw [h.root.type]
        decide
      unfold createFile
      rw [get_bind_apply, lookup_root fs hbytes]
      exact failIf_bind_of_pos hdir _ fs
  | file name hname hbytes => exact absurd hbytes (hother name hname)
  | through name rest hname hbytes hlength =>
      obtain ⟨hlookup, hrefused⟩ := lookup_through h hname hbytes hlength
      exact ⟨_, hsplit hlookup hrefused⟩
  | refused rc hlookup hrefused => exact ⟨rc, hsplit (hlookup fs) (hrefused fs)⟩

/-! ### What a call does to the names -/

/-- The nodes keep their names, and new ones have flat names. -/
structure Grows (fs fs' : Ramfs) : Prop where
  count : fs.nodeCount ≤ fs'.nodeCount
  name : ∀ i < fs.nodeCount, nameOf fs' i = nameOf fs i
  flat : ∀ i, fs.nodeCount ≤ i → i < fs'.nodeCount → FlatName (nameOf fs' i).bytes

/-- A new file has the name it was created for. -/
theorem bytes_nameOf_addFile (fs : Ramfs) (hname : FlatName name) (hzero : 0 ∉ name) :
    (nameOf (addFile fs name) fs.nodeCount).bytes = name := by
  rw [nameOf, addFile_node]
  exact congrArg CStr.bytes (ofMem_copyName hname.length hzero)

namespace Grows

theorem trans (h : Grows fs fs') (h' : Grows fs' fs'') : Grows fs fs'' where
  count := Nat.le_trans h.count h'.count
  name i hi := (h'.name i (Nat.lt_of_lt_of_le hi h.count)).trans (h.name i hi)
  flat i hi hi' := by
    by_cases hold : i < fs'.nodeCount
    · rw [h'.name i hold]
      exact h.flat i hi hold
    · exact h'.flat i (Nat.le_of_not_lt hold) hi'

/-- Only the names of the nodes matter. -/
theorem of_names (hcount : fs'.nodeCount = fs.nodeCount)
    (hname : ∀ i, (fs'.nodes i).name = (fs.nodes i).name) :
    Grows fs fs' where
  count := Nat.le_of_eq hcount.symm
  name i _ := by rw [nameOf, hname, nameOf]
  flat i hi hi' := absurd (hcount ▸ hi') (Nat.not_lt.mpr hi)

theorem refl (fs : Ramfs) : Grows fs fs := of_names rfl fun _ => rfl

theorem same (h : SameFiles fs fs') : Grows fs fs' := of_names h.nodeCount fun _ => by rw [h.nodes]

theorem resize (fs : Ramfs) (k n : ℕ) : Grows fs (resize fs k n) := by
  refine of_names rfl fun i => ?_
  by_cases hi : i = k
  · rw [hi, resize_node]
  · rw [resize_node_of_ne fs n hi]

theorem seeded (fs : Ramfs) (k : ℕ) (data : List UInt8) : Grows fs (seeded fs k data) :=
  (of_names rfl fun _ => rfl : Grows fs (store fs (fs.nodes k).dataOffset data)).trans
    (resize _ k data.length)

theorem written (fs : Ramfs) (k o : ℕ) (buf : List UInt8) : Grows fs (written fs k o buf) :=
  (of_names rfl fun _ => rfl : Grows fs (store fs ((fs.nodes k).dataOffset + o) buf)).trans
    (resize _ k _)

theorem addFile (fs : Ramfs) (hname : FlatName name) (hzero : 0 ∉ name) :
    Grows fs (addFile fs name) where
  count := Nat.le_succ _
  name i hi := by rw [nameOf, addFile_node_of_lt fs name hi, nameOf]
  flat i hi hi' := by
    obtain rfl : i = fs.nodeCount := Nat.le_antisymm (Nat.lt_succ_iff.mp hi') hi
    rw [bytes_nameOf_addFile fs hname hzero]
    exact hname

theorem named (h : Grows fs fs') (hnamed : Named fs) : Named fs' := by
  intro i hpos hi
  by_cases hold : i < fs.nodeCount
  · rw [h.name i hold]
    exact hnamed i hpos hold
  · exact h.flat i (Nat.le_of_not_lt hold) hi

end Grows

theorem createFile_grows (h : Layout fs) (path : CStr) : Grows fs (createFile path fs).2 := by
  by_cases hflat : ∃ name, FlatName name ∧ path.bytes = slash :: name
  · obtain ⟨name, hname, hbytes⟩ := hflat
    have hzero : 0 ∉ name := zero_notMem_of_file hbytes
    rw [createFile_file h hname hbytes]
    cases findChild fs 0 name with
    | ok k => exact Grows.refl fs
    | error rc =>
        by_cases hroom : fs.nodeCount ≤ 32
        · simp only [if_pos hroom]
          exact Grows.addFile fs hname hzero
        · simp only [if_neg hroom]
          exact Grows.refl fs
  · obtain ⟨rc, hrun⟩ := createFile_other h fun name hname hbytes => hflat ⟨name, hname, hbytes⟩
    rw [hrun]
    exact Grows.refl fs

theorem openNode_grows (h : Layout fs) (path : CStr) (flags : UInt32) :
    Grows fs (openNode path flags fs).2 := by
  unfold openNode
  rw [get_bind_apply]
  cases lookup fs path with
  | ok k => exact Grows.refl fs
  | error rc =>
      dsimp only
      by_cases hcreat : flags &&& oCreat = 0
      · rw [failIf_bind_of_pos hcreat]
        exact Grows.refl fs
      · rw [failIf_bind_of_not hcreat]
        exact createFile_grows h path

theorem seedFile_grows (h : Layout fs) (path : CStr) (data : List UInt8) :
    Grows fs (seedFile path data fs).2 := by
  have hcreated := createFile_grows h path
  rcases seedFile_cases h path data with ⟨rc, -, hrun⟩ | ⟨k, fs', hcreate, -, -,
    ⟨-, hrun⟩ | ⟨hrun, -⟩⟩
  · rw [hrun]
    exact Grows.refl fs
  · rw [hcreate] at hcreated
    rw [hrun]
    exact hcreated
  · rw [hcreate] at hcreated
    rw [hrun]
    exact hcreated.trans (Grows.seeded fs' k data)

theorem vfsOpen_grows {env : Env} (h : EnvOk env) (path : CStr) (flags : UInt32) :
    Grows env.fs (vfsOpen path flags env).2.fs := by
  have hnode := openNode_grows h.layout path (openFlags flags)
  rcases vfsOpen_cases h path flags with ⟨rc, -, hrun⟩ |
    ⟨k, fs', hopen, -, ⟨-, rc, table', hrun, -⟩ | ⟨-, i, offset, -, hrun, -⟩⟩
  · rw [hrun]
    exact Grows.refl env.fs
  · rw [hopen] at hnode
    rw [hrun]
    exact hnode
  · rw [hopen] at hnode
    rw [hrun]
    show Grows env.fs (if openFlags flags &&& oTrunc ≠ 0 then resize fs' k 0 else fs')
    split_ifs
    · exact hnode.trans (Grows.resize fs' k 0)
    · exact hnode

variable {ι : Type} [DecidableEq ι] {s : State ι}

theorem exec_grows (hinv : Inv s) (op : Op ι) : Grows s.fs (exec op s).fs := by
  cases op with
  | create path => exact createFile_grows hinv.layout path
  | seed path data => exact seedFile_grows hinv.layout path data
  | «open» t path flags => exact vfsOpen_grows (hinv.env t) path flags
  | read t fd len => exact Grows.same (vfsRead_same (hinv.env t) fd len)
  | write t fd buf =>
      show Grows s.fs (vfsWrite fd buf ⟨s.fs, s.tables t⟩).2.fs
      rcases vfsWrite_cases (hinv.env t) fd buf with ⟨rc, table', hrun, -, -⟩ | ⟨i, k,
        -, -, -, hrun⟩
      · rw [hrun]
        exact Grows.refl s.fs
      · rw [hrun]
        exact Grows.written s.fs k _ buf
  | lseek t fd offset whence => exact Grows.same (vfsLseek_same (hinv.env t) fd offset whence)
  | dup t fd => exact Grows.same (vfsDup_same ⟨s.fs, s.tables t⟩ fd)
  | close t fd => exact Grows.same (vfsClose_same ⟨s.fs, s.tables t⟩ fd)

theorem run_grows (hinv : Inv s) (ops : List (Op ι)) : Grows s.fs (run ops s).fs := by
  induction ops generalizing s with
  | nil => exact Grows.refl s.fs
  | cons op ops ih => exact (exec_grows hinv op).trans (ih (exec_local hinv op).inv)

omit [DecidableEq ι] in
theorem named_start (fs : Ramfs) : Named (start fs : State ι).fs := fun _ hpos hi =>
  absurd hi (Nat.not_lt.mpr hpos)

/-! ### Paths over a run -/

/-- A path that leads to a node leads to it ever after. -/
theorem lookup_run (hinv : Inv s) (hnamed : Named s.fs) (hlookup : lookup s.fs path = .ok k)
    (ops : List (Op ι)) :
    lookup (run ops s).fs path = .ok k := by
  have hgrows := run_grows hinv ops
  refine (lookup_eq_ok_iff (inv_run ops hinv).layout (hgrows.named hnamed) path k).mpr ?_
  rcases (lookup_eq_ok_iff hinv.layout hnamed path k).mp hlookup with hroot | ⟨hpos, hk, hbytes⟩
  · exact Or.inl hroot
  · exact Or.inr ⟨hpos, Nat.lt_of_lt_of_le hk hgrows.count, by rw [hbytes, hgrows.name k hk]⟩

theorem findChild_new (h : Layout fs) (h' : Layout (addFile fs name)) (hname : FlatName name)
    (hzero : 0 ∉ name) :
    findChild (addFile fs name) 0 name = .ok fs.nodeCount :=
  (findChild_eq_ok_iff h' hname hzero).mpr
    ⟨h.count_pos, Nat.lt_succ_self _, bytes_nameOf_addFile fs hname hzero⟩

/-- A new file leaves the search for every other name as it was. -/
theorem findChild_addFile (h : Layout fs) (h' : Layout (addFile fs name)) (hname : FlatName name)
    (hzero : 0 ∉ name) {other : List UInt8} (hother : FlatName other) (hzero' : 0 ∉ other)
    (hne : other ≠ name) :
    findChild (addFile fs name) 0 other = findChild fs 0 other := by
  have hgrows := Grows.addFile fs hname hzero
  have hnew := bytes_nameOf_addFile fs hname hzero
  rcases findChild_cases fs 0 hother.length with ⟨k, hfind, -⟩ | hfind
  · obtain ⟨hpos, hk, hbytes⟩ := (findChild_eq_ok_iff h hother hzero').mp hfind
    rw [hfind]
    exact (findChild_eq_ok_iff h' hother hzero').mpr
      ⟨hpos, Nat.lt_succ_of_lt hk, by rw [hgrows.name k hk, hbytes]⟩
  · rw [hfind]
    rcases findChild_cases (addFile fs name) 0 hother.length with ⟨k, hfind', -⟩ | hfind'
    · obtain ⟨hpos, hk, hbytes⟩ := (findChild_eq_ok_iff h' hother hzero').mp hfind'
      rcases Nat.lt_succ_iff_lt_or_eq.mp hk with hold | rfl
      · rw [hgrows.name k hold] at hbytes
        rw [(findChild_eq_ok_iff h hother hzero').mpr ⟨hpos, hold, hbytes⟩] at hfind
        cases hfind
      · exact absurd (hbytes.symm.trans hnew) hne
    · exact hfind'

/-- The other paths after a file was added: only those that go on behind the new name are answered
in another way. -/
theorem lookup_addFile (h : Layout fs) (h' : Layout (addFile fs name)) (hname : FlatName name)
    (hbytes : path.bytes = slash :: name) (hnone : findChild fs 0 name = .error .enoent)
    {other : CStr} (hother : other ≠ path) :
    lookup (addFile fs name) other = lookup fs other ∨
      (∃ rest, other.bytes = path.bytes ++ slash :: rest) ∧ lookup fs other = .error .enoent ∧
        lookup (addFile fs name) other = .error .enotdir := by
  have hzero : 0 ∉ name := zero_notMem_of_file hbytes
  cases shape other with
  | root hroot => exact Or.inl (by rw [lookup_root fs hroot, lookup_root _ hroot])
  | refused rc hrefused => exact Or.inl (by rw [hrefused, hrefused])
  | file name' hname' hbytes' =>
      have hzero' : 0 ∉ name' := zero_notMem_of_file hbytes'
      have hne : name' ≠ name := fun heq => hother (CStr.ext (by rw [hbytes', hbytes, heq]))
      left
      rw [lookup_file h' hname' hbytes', lookup_file h hname' hbytes',
        findChild_addFile h h' hname hzero hname' hzero' hne]
  | through name' rest hname' hbytes' hlength =>
      by_cases hne : name' = name
      · -- the path goes through the new file
        subst hne
        refine Or.inr ⟨⟨rest, by rw [hbytes', hbytes, List.cons_append]⟩, ?_, ?_⟩
        · rw [(lookup_through h hname hbytes' hlength).1, hnone, behind]
        · rw [(lookup_through h' hname hbytes' hlength).1, findChild_new h h' hname hzero, behind]
      · have hsame := findChild_addFile h h' hname hzero hname' (zero_notMem_of_bytes hbytes') hne
        exact Or.inl (by rw [(lookup_through h hname' hbytes' hlength).1,
          (lookup_through h' hname' hbytes' hlength).1, hsame])

/-- When `mcs_ramfs_create_file` succeeds: for the paths of files, if the file is there or there is
room for it. -/
theorem createFile_eq_ok_iff (h : Layout fs) (path : CStr) :
    (∃ k, (createFile path fs).1 = .ok k) ↔
      ∃ name, FlatName name ∧ path.bytes = slash :: name ∧
        ((∃ k, lookup fs path = .ok k) ∨ fs.nodeCount ≤ 32) := by
  constructor
  · rintro ⟨k, hrun⟩
    by_cases hflat : ∃ name, FlatName name ∧ path.bytes = slash :: name
    · obtain ⟨name, hname, hbytes⟩ := hflat
      rw [createFile_file h hname hbytes] at hrun
      rw [lookup_file h hname hbytes]
      refine ⟨name, hname, hbytes, ?_⟩
      cases hfind : findChild fs 0 name with
      | ok j => exact Or.inl ⟨j, rfl⟩
      | error rc =>
          by_cases hroom : fs.nodeCount ≤ 32
          · exact Or.inr hroom
          · simp only [hfind, if_neg hroom] at hrun
            cases hrun
    · obtain ⟨rc, hfails⟩ := createFile_other h fun name hname hbytes => hflat ⟨name, hname, hbytes⟩
      rw [hfails] at hrun
      cases hrun
  · rintro ⟨name, hname, hbytes, hroom⟩
    rw [lookup_file h hname hbytes] at hroom
    rw [createFile_file h hname hbytes]
    cases hfind : findChild fs 0 name with
    | ok j => exact ⟨j, rfl⟩
    | error rc =>
        have hcount : fs.nodeCount ≤ 32 := by
          rcases hroom with ⟨k, hk⟩ | hroom
          · rw [hfind] at hk
            cases hk
          · exact hroom
        simp only [if_pos hcount]
        exact ⟨fs.nodeCount, rfl⟩

/-- What a successful call for a path without a node has done. -/
theorem createFile_new (h : Layout fs) (hcreate : createFile path fs = (.ok k, fs'))
    (hnone : ∀ j, lookup fs path ≠ .ok j) :
    ∃ name, FlatName name ∧ path.bytes = slash :: name ∧ findChild fs 0 name = .error .enoent ∧
      k = fs.nodeCount ∧ fs' = addFile fs name := by
  obtain ⟨name, hname, hbytes, -⟩ := (createFile_eq_ok_iff h path).mp ⟨k, by rw [hcreate]⟩
  have hmissing : findChild fs 0 name = .error .enoent := by
    rcases findChild_cases fs 0 hname.length with ⟨j, hfind, -⟩ | hfind
    · exact absurd ((lookup_file h hname hbytes).trans hfind) (hnone j)
    · exact hfind
  rw [createFile_file h hname hbytes, hmissing] at hcreate
  dsimp only at hcreate
  by_cases hroom : fs.nodeCount ≤ 32
  · rw [if_pos hroom] at hcreate
    obtain ⟨hk, hfs⟩ := Prod.mk.inj hcreate
    exact ⟨name, hname, hbytes, hmissing, (Except.ok.inj hk).symm, hfs.symm⟩
  · rw [if_neg hroom] at hcreate
    cases hcreate

/-- The path of a new file leads to it. -/
theorem lookup_new (h : Layout fs) (h' : Layout (addFile fs name)) (hname : FlatName name)
    (hbytes : path.bytes = slash :: name) : lookup (addFile fs name) path = .ok fs.nodeCount := by
  have hzero : 0 ∉ name := zero_notMem_of_file hbytes
  rw [lookup_file h' hname hbytes, findChild_new h h' hname hzero]

theorem flatName_iff (name : List UInt8) :
    FlatName name ↔ 1 ≤ name.length ∧ name.length ≤ 31 ∧ slash ∉ name := by
  have hlength : BadLength name ↔ name.length = 0 ∨ 32 ≤ name.length := Iff.rfl
  constructor
  · intro hname
    have hbad := mt hlength.mpr hname.length
    exact ⟨by omega, by omega, hname.flat⟩
  · rintro ⟨hpos, hshort, hflat⟩
    refine ⟨fun hbad => ?_, hflat⟩
    have hlong := hlength.mp hbad
    omega

/-- **Paths.**  In every state of every run: a path leads to a node just when it is the separator,
or the separator followed by the name of a file.  A file is created just for the paths with 1 to 31
characters other than the separator behind it, if it is there already (and then nothing changes) or
fewer than 32 files are there.  The path leads to the new node ever after, and all other paths are
answered as before, except that a path which goes on behind the new name is refused with
`MCS_ENOTDIR` in place of `MCS_ENOENT`. -/
theorem path_resolution_exact (fs₀ : Ramfs) (ops : List (Op ι)) (path : CStr) :
    (∀ k, lookup (run ops (start fs₀ : State ι)).fs path = .ok k ↔
      (path.bytes = [slash] ∧ k = 0) ∨
        (0 < k ∧ k < (run ops (start fs₀ : State ι)).fs.nodeCount ∧
          path.bytes = slash :: (nameOf (run ops (start fs₀ : State ι)).fs k).bytes)) ∧
    ((∃ k, (createFile path (run ops (start fs₀ : State ι)).fs).1 = .ok k) ↔
      ∃ name, (1 ≤ name.length ∧ name.length ≤ 31 ∧ slash ∉ name) ∧ path.bytes = slash :: name ∧
        ((∃ k, lookup (run ops (start fs₀ : State ι)).fs path = .ok k) ∨
          (run ops (start fs₀ : State ι)).fs.nodeCount - 1 < 32)) ∧
    (∀ k, 0 < k → lookup (run ops (start fs₀ : State ι)).fs path = .ok k →
      createFile path (run ops (start fs₀ : State ι)).fs =
        (.ok k, (run ops (start fs₀ : State ι)).fs)) ∧
    ∀ k fs', createFile path (run ops (start fs₀ : State ι)).fs = (.ok k, fs') →
      (∀ j, lookup (run ops (start fs₀ : State ι)).fs path ≠ .ok j) →
      (∀ later : List (Op ι), lookup (run (ops ++ .create path :: later) (start fs₀ : State ι)).fs
        path = .ok k) ∧
      ∀ other, other ≠ path → lookup fs' other = lookup (run ops (start fs₀ : State ι)).fs other ∨
        (∃ rest, other.bytes = path.bytes ++ slash :: rest) ∧
          lookup (run ops (start fs₀ : State ι)).fs other = .error .enoent ∧
          lookup fs' other = .error .enotdir := by
  have hinv : Inv (run ops (start fs₀ : State ι)) := inv_run ops (inv_start fs₀)
  have hnamed : Named (run ops (start fs₀ : State ι)).fs :=
    (run_grows (inv_start fs₀) ops).named (named_start fs₀)
  have hrun : ∀ later, run (ops ++ later) (start fs₀ : State ι) = run later (run ops (start fs₀)) :=
    fun later => by
    rw [run, run, run, List.foldl_append]
  generalize run ops (start fs₀ : State ι) = s at hinv hnamed hrun
  have hlayout := hinv.layout
  refine ⟨fun k => lookup_eq_ok_iff hlayout hnamed path k, ?_, fun k hpos hlookup => ?_,
    fun k fs' hcreate hnone => ?_⟩
  · have hroom : s.fs.nodeCount - 1 < 32 ↔ s.fs.nodeCount ≤ 32 := by
      have hpos := hlayout.count_pos
      omega
    simp only [createFile_eq_ok_iff hlayout, flatName_iff, hroom]
  · rcases (lookup_eq_ok_iff hlayout hnamed path k).mp hlookup with ⟨-, rfl⟩ | ⟨-, hk, hbytes⟩
    · exact absurd hpos (Nat.lt_irrefl 0)
    · have hname := hnamed k hpos hk
      rw [lookup_file hlayout hname hbytes] at hlookup
      rw [createFile_file hlayout hname hbytes, hlookup]
  · obtain ⟨name, hname, hbytes, hmissing, rfl, rfl⟩ := createFile_new hlayout hcreate hnone
    have hnext : exec (.create path) s = ⟨addFile s.fs name, s.tables⟩ := by rw [exec, hcreate]
    have hinv' : Inv (exec (.create path) s) := (exec_local hinv (.create path)).inv
    have hlayout' : Layout (addFile s.fs name) := by
      have h := hinv'.layout
      rwa [hnext] at h
    have hnamed' : Named (exec (.create path) s).fs := (exec_grows hinv (.create path)).named hnamed
    have hlookup : lookup (exec (.create path) s).fs path = .ok s.fs.nodeCount := by
      rw [hnext]
      exact lookup_new hlayout hlayout' hname hbytes
    refine ⟨fun later => ?_, fun other hother => lookup_addFile hlayout hlayout' hname hbytes
      hmissing hother⟩
    rw [hrun]
    exact lookup_run hinv' hnamed' hlookup later

/-- `/g` -/
def pathG : CStr := ⟨[0x2f, 0x67], by decide⟩

/-- `/g/h` -/
def pathBelowG : CStr := ⟨[0x2f, 0x67, 0x2f, 0x68], by decide⟩

/-- The answer for `/g/h` changes when `/g` is created. -/
theorem create_changes_other_lookup :
    (createFile pathG (start blankRamfs : State Unit).fs).1 = .ok 1 ∧
      lookup (start blankRamfs : State Unit).fs pathBelowG = .error .enoent ∧
      lookup (createFile pathG (start blankRamfs : State Unit).fs).2 pathBelowG = .error .enotdir ∧
      ¬ ∀ other, other ≠ pathG →
      lookup (createFile pathG (start blankRamfs : State Unit).fs).2 other =
        lookup (start blankRamfs : State Unit).fs other := by
  have hbefore : lookup (start blankRamfs : State Unit).fs pathBelowG = .error .enoent := rfl
  have hafter : lookup (createFile pathG (start blankRamfs : State Unit).fs).2 pathBelowG =
      .error .enotdir := rfl
  refine ⟨rfl, hbefore, hafter, fun hsame => ?_⟩
  have hcontra := hsame pathBelowG (by decide)
  rw [hbefore, hafter] at hcontra
  cases hcontra

end Mcsos.Vfs
