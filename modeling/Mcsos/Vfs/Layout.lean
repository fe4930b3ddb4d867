import Mcsos.Vfs.Fd

/-!
# The layout of the RAM filesystem

All files are made by `mcs_ramfs_create_file`, with a capacity of 256 bytes: file `i` has the region
from `256 * (i - 1)` on (`Layout`).

`Local k fs fs'` says that a part of a call worked on file `k` only.  It holds of the few things
that the code does to the filesystem, it composes, and so it holds of the operations.
-/

namespace Mcsos.Vfs

open Act

variable {fs fs' fs'' : Ramfs} {path : CStr} {k : ℕ}

/-- The name of the root directory. -/
def rootName : CStr := ⟨[slash], by decide⟩

/-- The name of a node, as a string. -/
def nameOf (fs : Ramfs) (i : ℕ) : CStr := CStr.ofMem (fs.nodes i).name.byte maxName

/-- An index of `data` in the region of a node. -/
def InRegion (fs : Ramfs) (i x : ℕ) : Prop :=
  (fs.nodes i).dataOffset ≤ x ∧ x < (fs.nodes i).dataOffset + (fs.nodes i).dataCapacity

/-- The readable bytes of a file. -/
def content (fs : Ramfs) (i : ℕ) : List UInt8 :=
  (List.range' (fs.nodes i).dataOffset (fs.nodes i).size).map fs.data

/-- The root directory. -/
structure IsRoot (v : Vnode) : Prop where
  used : v.used = true
  id : v.id = 0
  parent : v.parent = 0
  type : v.type = .dir
  size : v.size = 0
  dataOffset : v.dataOffset = 0
  dataCapacity : v.dataCapacity = 0

/-- File number `i`. -/
structure IsFile (i : ℕ) (v : Vnode) : Prop where
  used : v.used = true
  id : v.id = i
  parent : v.parent = 0
  type : v.type = .file
  size : v.size ≤ 256
  dataOffset : v.dataOffset = 256 * (i - 1)
  dataCapacity : v.dataCapacity = 256

/-- A filesystem with a root directory and files in it. -/
structure Layout (fs : Ramfs) : Prop where
  count_pos : 0 < fs.nodeCount
  count_le : fs.nodeCount ≤ 33
  dataUsed : fs.dataUsed = 256 * (fs.nodeCount - 1)
  root : IsRoot (fs.nodes 0)
  rootNamed : nameOf fs 0 = rootName
  file : ∀ i, 0 < i → i < fs.nodeCount → IsFile i (fs.nodes i)
  names : ∀ i j, i < j → j < fs.nodeCount → nameOf fs i ≠ nameOf fs j

namespace Layout

theorem type_eq_file (h : Layout fs) (hk : k < fs.nodeCount) :
    (fs.nodes k).type = .file ↔ 0 < k := by
  constructor
  · intro hfile
    by_contra hzero
    obtain rfl : k = 0 := by omega
    rw [h.root.type] at hfile
    cases hfile
  · exact fun hpos => (h.file k hpos hk).type

theorem type_eq_dir (h : Layout fs) (hk : k < fs.nodeCount) : (fs.nodes k).type = .dir ↔ k = 0 := by
  constructor
  · intro hdir
    by_contra hpos
    rw [(h.file k (by omega) hk).type] at hdir
    cases hdir
  · rintro rfl
    exact h.root.type

theorem inRegion_iff (h : Layout fs) (hk : k < fs.nodeCount) (x : ℕ) :
    InRegion fs k x ↔ 0 < k ∧ 256 * (k - 1) ≤ x ∧ x < 256 * (k - 1) + 256 := by
  unfold InRegion
  rcases Nat.eq_zero_or_pos k with rfl | hpos
  · rw [h.root.dataOffset, h.root.dataCapacity]
    omega
  · rw [(h.file k hpos hk).dataOffset, (h.file k hpos hk).dataCapacity]
    omega

/-- Every node is used, and its parent is the root. -/
theorem used_parent (h : Layout fs) (hk : k < fs.nodeCount) :
    (fs.nodes k).used = true ∧ (fs.nodes k).parent = 0 := by
  rcases Nat.eq_zero_or_pos k with rfl | hpos
  · exact ⟨h.root.used, h.root.parent⟩
  · exact ⟨(h.file k hpos hk).used, (h.file k hpos hk).parent⟩

/-- Only the nodes matter for the layout. -/
theorem congr (h : Layout fs) (hnodes : fs'.nodes = fs.nodes)
    (hcount : fs'.nodeCount = fs.nodeCount) (hused : fs'.dataUsed = fs.dataUsed) : Layout fs' := by
  obtain ⟨nodes, count, data, used, touched⟩ := fs
  obtain ⟨nodes', count', data', used', touched'⟩ := fs'
  obtain rfl : nodes' = nodes := hnodes
  obtain rfl : count' = count := hcount
  obtain rfl : used' = used := hused
  exact ⟨h.count_pos, h.count_le, h.dataUsed, h.root, h.rootNamed, h.file, h.names⟩

end Layout

theorem layout_init (fs : Ramfs) : Layout (ramfsInit fs) where
  count_pos := Nat.one_pos
  count_le := (by decide : 1 ≤ 33)
  dataUsed := rfl
  root := ⟨rfl, rfl, rfl, rfl, rfl, rfl, rfl⟩
  rootNamed := by
    have hbyte : ∀ i < 2, (rootNode (fs.nodes 0)).name.byte i = if i = 0 then slash else 0 := by
      intro i hi
      have hlt : i < maxName := Nat.lt_trans hi (by decide)
      rw [rootNode, Bytes.byte_splice_of_inside _ _ hlt (by omega), Nat.sub_zero]
    refine (CStr.ofMem_eq_iff _ (by decide : rootName.length ≤ maxName)).mpr ⟨?_, fun _ => ?_⟩
    · intro i hi
      obtain rfl : i = 0 := Nat.lt_one_iff.mp hi
      exact hbyte 0 (by decide)
    · exact hbyte 1 (by decide)
  file i hpos hi := absurd hi (Nat.not_lt.mpr hpos)
  names i j hij hj := by
    have hj : j < 1 := hj
    omega

/-! ## Working on one file -/

/-- A part of a call that works on file `k`: it keeps the layout, changes no other file, and uses
only indices in the region of that file. -/
structure Local (k : Option ℕ) (fs fs' : Ramfs) : Prop where
  layout : Layout fs'
  count : fs.nodeCount ≤ fs'.nodeCount
  node : ∀ i < fs.nodeCount, k ≠ some i → fs'.nodes i = fs.nodes i
  data : ∀ i < fs.nodeCount, k ≠ some i → ∀ x, InRegion fs i x → fs'.data x = fs.data x
  touched : ∃ new, fs'.touched = fs.touched ++ new ∧
    ∀ x ∈ new, ∃ j, k = some j ∧ j < fs'.nodeCount ∧ InRegion fs' j x

namespace Local

variable {j : Option ℕ}

theorem refl (h : Layout fs) : Local j fs fs where
  layout := h
  count := Nat.le_refl _
  node _ _ _ := rfl
  data _ _ _ _ _ := rfl
  touched := ⟨[], (List.append_nil _).symm, fun _ hx => absurd hx List.not_mem_nil⟩

theorem inRegion (h : Local j fs fs') (hfs : Layout fs) {i x : ℕ} (hi : i < fs.nodeCount) :
    InRegion fs i x ↔ InRegion fs' i x := by
  rw [hfs.inRegion_iff hi, h.layout.inRegion_iff (Nat.lt_of_lt_of_le hi h.count)]

theorem trans (hfs : Layout fs) (h : Local j fs fs') (h' : Local j fs' fs'') : Local j fs fs'' where
  layout := h'.layout
  count := Nat.le_trans h.count h'.count
  node i hi hne := (h'.node i (Nat.lt_of_lt_of_le hi h.count) hne).trans (h.node i hi hne)
  data i hi hne x hx := by
    have hx' := (h.inRegion hfs hi).mp hx
    exact (h'.data i (Nat.lt_of_lt_of_le hi h.count) hne x hx').trans (h.data i hi hne x hx)
  touched := by
    obtain ⟨new, hnew, hin⟩ := h.touched
    obtain ⟨new', hnew', hin'⟩ := h'.touched
    refine ⟨new ++ new', by rw [hnew', hnew, List.append_assoc], fun x hx => ?_⟩
    rcases List.mem_append.mp hx with hx | hx
    · obtain ⟨i, hi, hlt, hregion⟩ := hin x hx
      exact ⟨i, hi, Nat.lt_of_lt_of_le hlt h'.count, (h'.inRegion h.layout hlt).mp hregion⟩
    · exact hin' x hx

/-- Bytes are read from a file. -/
theorem read (h : Layout fs) (hk : k < fs.nodeCount) {start n : ℕ}
    (hin : ∀ x, start ≤ x → x < start + n → InRegion fs k x) :
    Local (some k) fs (touch fs start n) where
  layout := h.congr rfl rfl rfl
  count := Nat.le_refl _
  node _ _ _ := rfl
  data _ _ _ _ _ := rfl
  touched := by
    refine ⟨List.range' start n, rfl, fun x hx => ⟨k, rfl, hk, ?_⟩⟩
    have hx' := List.mem_range'_1.mp hx
    exact hin x hx'.1 hx'.2

/-- Bytes are written to a file. -/
theorem write (h : Layout fs) (hk : k < fs.nodeCount) {start : ℕ} {src : List UInt8}
    (hin : ∀ x, start ≤ x → x < start + src.length → InRegion fs k x) :
    Local (some k) fs (store fs start src) where
  layout := h.congr rfl rfl rfl
  count := Nat.le_refl _
  node _ _ _ := rfl
  data i hi hne x hx := by
    refine if_neg fun hwritten => hne ?_
    have hx' := hin x hwritten.1 hwritten.2
    rw [h.inRegion_iff hi] at hx
    rw [h.inRegion_iff hk] at hx'
    have heq : k = i := by omega
    rw [heq]
  touched := (read h hk hin).touched

/-- The size of a file is set. -/
theorem size (h : Layout fs) (hpos : 0 < k) (hk : k < fs.nodeCount) {n : ℕ} (hn : n ≤ 256) :
    Local (some k) fs (resize fs k n) := by
  have hname : ∀ i, nameOf (resize fs k n) i = nameOf fs i := by
    intro i
    rw [nameOf, nameOf]
    rcases eq_or_ne i k with rfl | hi
    · rw [resize_node]
    · rw [resize_node_of_ne fs n hi]
  refine ⟨⟨h.count_pos, h.count_le, h.dataUsed, ?_, ?_, ?_, ?_⟩, Nat.le_refl _, ?_,
    fun _ _ _ _ _ => rfl, ?_⟩
  · rw [resize_node_of_ne fs n (Nat.ne_of_lt hpos)]
    exact h.root
  · rw [hname]
    exact h.rootNamed
  · intro i hi hcount
    rcases eq_or_ne i k with rfl | hne
    · rw [resize_node]
      exact { h.file i hi hcount with size := hn }
    · rw [resize_node_of_ne fs n hne]
      exact h.file i hi hcount
  · intro i j hij hj
    rw [hname, hname]
    exact h.names i j hij hj
  · intro i _ hne
    exact resize_node_of_ne fs n fun heq => hne (heq ▸ rfl)
  · exact ⟨[], (List.append_nil _).symm, fun _ hx => absurd hx List.not_mem_nil⟩

end Local

/-! ## New files -/

/-- The filesystem with one more file. -/
def addFile (fs : Ramfs) (leaf : List UInt8) : Ramfs :=
  { fs with
    nodes := Function.update fs.nodes fs.nodeCount (newNode fs 0 .file leaf 256)
    dataUsed := sizeAdd fs.dataUsed 256
    nodeCount := fs.nodeCount + 1 }

theorem addFile_node_of_lt (fs : Ramfs) (leaf : List UInt8) {i : ℕ} (hi : i < fs.nodeCount) :
    (addFile fs leaf).nodes i = fs.nodes i := Function.update_of_ne (Nat.ne_of_lt hi) ..

theorem addFile_node (fs : Ramfs) (leaf : List UInt8) :
    (addFile fs leaf).nodes fs.nodeCount = newNode fs 0 .file leaf 256 := Function.update_self ..

/-- A name for a new file. -/
structure Fresh (fs : Ramfs) (leaf : List UInt8) : Prop where
  length : ¬ BadLength leaf
  nonzero : 0 ∉ leaf
  new : ∀ i < fs.nodeCount, streqN leaf (fs.nodes i).name = false

/-- `mcs_streq_n` compares strings. -/
theorem streqN_iff {name : List UInt8} (hlength : ¬ BadLength name) (hzero : 0 ∉ name)
    (b : Bytes maxName) : streqN name b = true ↔ CStr.ofMem b.byte maxName = ⟨name, hzero⟩ := by
  have hlt : name.length < maxName := by
    unfold BadLength at hlength
    omega
  have hle : (⟨name, hzero⟩ : CStr).length ≤ maxName := Nat.le_of_lt hlt
  rw [CStr.ofMem_eq_iff _ hle, streqN, Bool.and_eq_true, List.all_eq_true, beq_iff_eq]
  constructor
  · rintro ⟨hchars, hend⟩
    refine ⟨fun i hi => ?_, fun _ => hend⟩
    exact (beq_iff_eq.mp (hchars i (List.mem_range.mpr hi))).symm
  · rintro ⟨hchars, hend⟩
    refine ⟨fun i hi => ?_, hend hlt⟩
    exact beq_iff_eq.mpr (hchars i (List.mem_range.mp hi)).symm

/-- The name of a new node is the name it was made with. -/
theorem ofMem_copyName {name : List UInt8} (hlength : ¬ BadLength name) (hzero : 0 ∉ name) :
    CStr.ofMem (copyName name).byte maxName = ⟨name, hzero⟩ := by
  have hlt : name.length < maxName := by
    unfold BadLength at hlength
    omega
  have hmin : min name.length (maxName - 1) = name.length := by omega
  have hle : (⟨name, hzero⟩ : CStr).length ≤ maxName := Nat.le_of_lt hlt
  refine (CStr.ofMem_eq_iff _ hle).mpr ⟨fun i hi => ?_, fun hend => ?_⟩
  · have hi' : i < name.length := hi
    rw [copyName, hmin, Bytes.byte_splice_of_inside _ _ (by omega) (by omega)]
    rfl
  · show (copyName name).byte name.length = 0
    rw [copyName, hmin, Bytes.byte_splice_of_outside _ _ (by omega), Bytes.byte_zero]

theorem Local.add (h : Layout fs) {leaf : List UInt8} (hleaf : Fresh fs leaf)
    (hroom : fs.nodeCount ≤ 32) :
    Local (some fs.nodeCount) fs (addFile fs leaf) := by
  have hold : ∀ i < fs.nodeCount, (addFile fs leaf).nodes i = fs.nodes i := fun i hi =>
    addFile_node_of_lt fs leaf hi
  have hname : ∀ i < fs.nodeCount, nameOf (addFile fs leaf) i = nameOf fs i := by
    intro i hi
    rw [nameOf, hold i hi, nameOf]
  have hnewName : nameOf (addFile fs leaf) fs.nodeCount = ⟨leaf, hleaf.nonzero⟩ := by
    rw [nameOf, addFile_node]
    exact ofMem_copyName hleaf.length hleaf.nonzero
  have hpos := h.count_pos
  have hused := h.dataUsed
  refine ⟨⟨Nat.succ_pos _, Nat.succ_le_succ hroom, ?_, ?_, ?_, ?_, ?_⟩, Nat.le_succ _,
    fun i hi _ => hold i hi, fun _ _ _ _ _ => rfl,
    ⟨[], (List.append_nil _).symm, fun _ hx => absurd hx List.not_mem_nil⟩⟩
  · show (fs.dataUsed + 256) % 2 ^ 64 = 256 * (fs.nodeCount + 1 - 1)
    omega
  · rw [hold 0 hpos]
    exact h.root
  · rw [hname 0 hpos]
    exact h.rootNamed
  · intro i hi hcount
    rcases Nat.lt_succ_iff_lt_or_eq.mp hcount with hlt | rfl
    · rw [hold i hlt]
      exact h.file i hi hlt
    · rw [addFile_node]
      exact ⟨rfl, rfl, rfl, rfl, Nat.zero_le _, hused, rfl⟩
  · intro i j hij hcount
    rcases Nat.lt_succ_iff_lt_or_eq.mp hcount with hlt | rfl
    · rw [hname i (by omega), hname j hlt]
      exact h.names i j hij hlt
    · rw [hname i hij, hnewName]
      intro heq
      have htaken := (streqN_iff hleaf.length hleaf.nonzero _).mpr heq
      rw [hleaf.new i hij] at htaken
      cases htaken

theorem allocNode_apply (h : Layout fs) {leaf : List UInt8} (hleaf : ¬ BadLength leaf) :
    allocNode 0 .file leaf 256 fs =
      if fs.nodeCount ≤ 32 then (.ok fs.nodeCount, addFile fs leaf) else (.error .enospc, fs) := by
  have hcount := h.count_le
  have hpos := h.count_pos
  have hmax : ¬ maxNodes ≤ fs.nodeCount := by
    show ¬ 64 ≤ fs.nodeCount
    omega
  have hsum : sizeAdd fs.dataUsed 256 = 256 * fs.nodeCount := by
    have hused := h.dataUsed
    show (fs.dataUsed + 256) % 2 ^ 64 = 256 * fs.nodeCount
    omega
  unfold allocNode
  rw [failIf_bind_of_not hleaf, get_bind_apply, failIf_bind_of_not hmax]
  by_cases hroom : fs.nodeCount ≤ 32
  · have hfits : ¬ (VnodeType.file = .file ∧ ramfsDataBytes < sizeAdd fs.dataUsed 256) := by
      rw [hsum]
      show ¬ (_ ∧ 8192 < 256 * fs.nodeCount)
      omega
    rw [failIf_bind_of_not hfits, if_pos hroom]
    rfl
  · have hfull : VnodeType.file = .file ∧ ramfsDataBytes < sizeAdd fs.dataUsed 256 := by
      rw [hsum]
      refine ⟨rfl, ?_⟩
      show 8192 < 256 * fs.nodeCount
      omega
    rw [failIf_bind_of_pos hfull, if_neg hroom]

/-- The node with a path, and the node after the last one if there is none. -/
def pathNode (fs : Ramfs) (path : CStr) : ℕ :=
  match lookup fs path with
  | .ok k => k
  | .error _ => fs.nodeCount

/-- The file with a path is there, or it was added. -/
inductive Found (fs : Ramfs) (path : CStr) : ℕ → Ramfs → Prop where
  | old {k : ℕ} (hlookup : lookup fs path = .ok k) (hk : k < fs.nodeCount) : Found fs path k fs
  | new {rc : Err} {leaf : List UInt8} (hlookup : lookup fs path = .error rc)
      (hleaf : Fresh fs leaf) (hroom : fs.nodeCount ≤ 32) :
      Found fs path fs.nodeCount (addFile fs leaf)

namespace Found

theorem pathNode_eq (h : Found fs path k fs') : pathNode fs path = k := by
  unfold pathNode
  cases h with
  | old hlookup => rw [hlookup]
  | new hlookup => rw [hlookup]

theorem lt (h : Found fs path k fs') : k < fs'.nodeCount := by
  cases h with
  | old _ hk => exact hk
  | new => exact Nat.lt_succ_self _

theorem toLocal (h : Found fs path k fs') (hfs : Layout fs) : Local (some k) fs fs' := by
  cases h with
  | old => exact Local.refl hfs
  | new _ hleaf hroom => exact Local.add hfs hleaf hroom

end Found

/-- `mcs_ramfs_create_file` fails, or finds the file, or adds one. -/
theorem createFile_cases (h : Layout fs) (path : CStr) :
    (∃ rc, createFile path fs = (.error rc, fs)) ∨
      ∃ k fs', createFile path fs = (.ok k, fs') ∧ 0 < k ∧ Found fs path k fs' := by
  unfold createFile
  rw [get_bind_apply]
  cases hlookup : lookup fs path with
  | ok k =>
      have hk := lookup_lt h.count_pos hlookup
      by_cases hfile : (fs.nodes k).type = .file
      · refine Or.inr ⟨k, fs, ?_, (h.type_eq_file hk).mp hfile, .old hlookup hk⟩
        show (failIf ((fs.nodes k).type ≠ .file) .eisdir >>= fun _ => pure k : Act Ramfs Err ℕ) fs =
          _
        rw [failIf_bind_of_not (not_not.mpr hfile)]
        rfl
      · exact Or.inl ⟨.eisdir, failIf_bind_of_pos hfile _ fs⟩
  | error rc =>
      cases hsplit : splitParentLeaf fs path with
      | error rc' => exact Or.inl ⟨rc', rfl⟩
      | ok found =>
          obtain ⟨p, leaf⟩ := found
          obtain ⟨hfind, hp, hlength, hzero⟩ :=
            findChild_of_splitParentLeaf h.count_pos hlookup hsplit
          by_cases hdir : (fs.nodes p).type = .dir
          · obtain rfl := (h.type_eq_dir hp).mp hdir
            have hfresh : Fresh fs leaf := ⟨hlength, hzero, fun i hi =>
              streqN_of_findChild_eq_error hlength hfind hi (h.used_parent hi).1
                ((h.used_parent hi).2.trans h.root.id.symm)⟩
            have hrun : (failIf ((fs.nodes 0).type ≠ .dir) .enotdir >>= fun _ =>
                allocNode (fs.nodes 0).id .file leaf 256 : Act Ramfs Err ℕ) fs =
                if fs.nodeCount ≤ 32 then (.ok fs.nodeCount, addFile fs leaf)
                  else (.error .enospc, fs) := by
              rw [failIf_bind_of_not (not_not.mpr hdir), h.root.id, allocNode_apply h hlength]
            by_cases hroom : fs.nodeCount ≤ 32
            · rw [if_pos hroom] at hrun
              exact Or.inr ⟨fs.nodeCount, addFile fs leaf, hrun, h.count_pos, .new hlookup
                hfresh hroom⟩
            · rw [if_neg hroom] at hrun
              exact Or.inl ⟨.enospc, hrun⟩
          · exact Or.inl ⟨.enotdir, failIf_bind_of_pos hdir _ fs⟩

end Mcsos.Vfs
