import Mcsos.Lib.Act
import Mcsos.Lib.CString
import Mathlib.Logic.Function.Basic

/-!
# The RAM filesystem

A table of nodes and an arena of bytes, in which every file has a region of its own.  Node 0 is the
root directory.

The arrays `nodes` and `data` are functions on all numbers, of which the C structure has the first
64 and 8192.  `touched` is not in the C structure: it records the indices of `data` that the code
reads or writes, so that one can say which these are.  A node pointer is the index of the node.
-/

namespace Mcsos.Vfs

open Act

/-- The status codes of `mcs_vfs.h`, without `MCS_OK`. -/
inductive Err where
  | enoent
  | ebadf
  | eacces
  | eexist
  | enotdir
  | eisdir
  | einval
  | enfile
  | enospc
  | enametoolong
  deriving DecidableEq, Repr

/-- `MCS_MAX_NAME` -/
def maxName : ℕ := 32

/-- `MCS_MAX_PATH` -/
def maxPath : ℕ := 128

/-- `MCS_MAX_NODES` -/
def maxNodes : ℕ := 64

/-- `MCS_RAMFS_DATA_BYTES` -/
def ramfsDataBytes : ℕ := 8192

/-- The separator of paths. -/
def slash : UInt8 := 0x2f

/-- A sum of type `size_t`. -/
def sizeAdd (a b : ℕ) : ℕ := (a + b) % 2 ^ 64

/-- `enum mcs_vnode_type` -/
inductive VnodeType where
  | dir
  | file
  deriving DecidableEq, Repr

/-- `struct mcs_vnode` -/
structure Vnode where
  used : Bool
  id : ℕ
  parent : ℕ
  type : VnodeType
  name : Bytes maxName
  size : ℕ
  dataOffset : ℕ
  dataCapacity : ℕ

/-- `struct mcs_ramfs`, with the indices of `data` that were used so far. -/
structure Ramfs where
  nodes : ℕ → Vnode
  nodeCount : ℕ
  data : ℕ → UInt8
  dataUsed : ℕ
  touched : List ℕ

/-! ## The arena -/

/-- Reads a byte of `data`. -/
def loadByte (i : ℕ) : Act Ramfs Err UInt8 := do
  let fs ← get
  modify fun fs => { fs with touched := fs.touched ++ [i] }
  pure (fs.data i)

/-- Writes a byte of `data`. -/
def storeByte (i : ℕ) (b : UInt8) : Act Ramfs Err Unit :=
  modify fun fs => { fs with data := Function.update fs.data i b, touched := fs.touched ++ [i] }

/-- `mcs_copy_bytes` and `mcs_copy_from_user`, to the bytes of `data` from `dst` on. -/
def copyBytes (dst : ℕ) : List UInt8 → Act Ramfs Err Unit
  | [] => pure ()
  | b :: src => do
      storeByte dst b
      copyBytes (dst + 1) src

/-- `mcs_copy_to_user`, of `n` bytes of `data` from `src` on. -/
def copyToUser (src : ℕ) : (n : ℕ) → Act Ramfs Err (List UInt8)
  | 0 => pure []
  | n + 1 => do
      let b ← loadByte src
      let rest ← copyToUser (src + 1) n
      pure (b :: rest)

/-- The arena after the bytes `src` were copied to `dst`. -/
def overwrite (data : ℕ → UInt8) (dst : ℕ) (src : List UInt8) : ℕ → UInt8 := fun i =>
  if dst ≤ i ∧ i < dst + src.length then src.getD (i - dst) 0 else data i

theorem overwrite_of_outside {data : ℕ → UInt8} {dst i : ℕ} {src : List UInt8}
    (h : i < dst ∨ dst + src.length ≤ i) : overwrite data dst src i = data i := if_neg (by omega)

theorem overwrite_of_inside {data : ℕ → UInt8} {dst i : ℕ} {src : List UInt8}
    (hi : i < src.length) :
    overwrite data dst src (dst + i) = src.getD i 0 := by
  rw [overwrite, if_pos (by omega), Nat.add_sub_cancel_left]

theorem overwrite_cons (data : ℕ → UInt8) (dst : ℕ) (b : UInt8) (src : List UInt8) :
    overwrite (Function.update data dst b) (dst + 1) src = overwrite data dst (b :: src) := by
  funext i
  rcases Nat.lt_trichotomy i dst with hlt | rfl | hgt
  · rw [overwrite_of_outside (by omega), overwrite_of_outside (by omega),
      Function.update_of_ne (Nat.ne_of_lt hlt)]
  · have hhead : overwrite data i (b :: src) (i + 0) = (b :: src).getD 0 0 :=
      overwrite_of_inside (Nat.succ_pos _)
    rw [overwrite_of_outside (by omega), Function.update_self]
    exact hhead.symm
  · obtain ⟨j, rfl⟩ : ∃ j, i = dst + 1 + j := ⟨i - (dst + 1), by omega⟩
    by_cases hj : j < src.length
    · have hj' : j + 1 < (b :: src).length := Nat.succ_lt_succ hj
      rw [overwrite_of_inside hj, Nat.add_assoc, Nat.add_comm 1 j, overwrite_of_inside hj',
        List.getD_cons_succ]
    · rw [overwrite_of_outside (by omega), overwrite_of_outside (by rw [List.length_cons]; omega),
        Function.update_of_ne (by omega)]

/-- The filesystem after `n` bytes were read from `start` on. -/
def touch (fs : Ramfs) (start n : ℕ) : Ramfs :=
  { fs with touched := fs.touched ++ List.range' start n }

/-- The filesystem after the bytes `src` were written from `start` on. -/
def store (fs : Ramfs) (start : ℕ) (src : List UInt8) : Ramfs :=
  { touch fs start src.length with data := overwrite fs.data start src }

theorem copyBytes_apply (dst : ℕ) (src : List UInt8) (fs : Ramfs) :
    copyBytes dst src fs = (.ok (), store fs dst src) := by
  induction src generalizing dst fs with
  | nil =>
      have hdata : overwrite fs.data dst [] = fs.data := funext fun i =>
        overwrite_of_outside (by rw [List.length_nil]; omega)
      rw [copyBytes, store, touch, hdata, List.length_nil, List.range'_zero, List.append_nil]
      rfl
  | cons b src ih =>
      have hstore : storeByte dst b fs = (.ok (), { fs with
          data := Function.update fs.data dst b, touched := fs.touched ++ [dst] }) := rfl
      rw [copyBytes, bind_of_ok hstore, ih, store, touch, store, touch, overwrite_cons,
        List.length_cons, List.range'_succ, List.append_assoc, List.singleton_append]

theorem copyToUser_apply (src n : ℕ) (fs : Ramfs) :
    copyToUser src n fs =
      (.ok ((List.range' src n).map fs.data), touch fs src n) := by
  induction n generalizing src fs with
  | zero =>
      rw [copyToUser, touch, List.range'_zero, List.append_nil]
      rfl
  | succ n ih =>
      have hload : loadByte src fs =
          (.ok (fs.data src), { fs with touched := fs.touched ++ [src] }) := rfl
      rw [copyToUser, bind_of_ok hload, bind_of_ok (ih ..), touch, touch, List.range'_succ,
        List.map_cons, List.append_assoc, List.singleton_append]
      rfl

/-! ## Names and paths -/

/-- `mcs_streq_n` -/
def streqN (a : List UInt8) (b : Bytes maxName) : Bool :=
  ((List.range a.length).all fun i => a.getD i 0 == b.byte i) && b.byte a.length == 0

/-- `mcs_copy_name` -/
def copyName (src : List UInt8) : Bytes maxName :=
  Bytes.zero.splice 0 (min src.length (maxName - 1)) fun i => src.getD i 0

/-- The lengths of names that are refused. -/
def BadLength (name : List UInt8) : Prop := name.length = 0 ∨ maxName ≤ name.length

instance (name : List UInt8) : Decidable (BadLength name) := inferInstanceAs (Decidable (_ ∨ _))

/-- `mcs_find_child` -/
def findChild (fs : Ramfs) (parent : ℕ) (name : List UInt8) : Except Err ℕ :=
  if BadLength name then .error .einval
  else
    match (List.range fs.nodeCount).find? fun i =>
        (fs.nodes i).used && (fs.nodes i).parent == parent && streqN name (fs.nodes i).name with
    | some i => .ok i
    | none => .error .enoent

/-- The parts of a path between the separators. -/
def segments : List UInt8 → List (List UInt8)
  | [] => [[]]
  | c :: path =>
      if c = slash then [] :: segments path
      else
        match segments path with
        | [] => [[c]]
        | seg :: rest => (c :: seg) :: rest

/-- One turn of the loops over a path, for a part that is not the last: the directory of that
name. -/
def descend (fs : Ramfs) (cur : ℕ) (seg : List UInt8) : Except Err ℕ :=
  if BadLength seg then .error .einval
  else
    match findChild fs (fs.nodes cur).id seg with
    | .error rc => .error rc
    | .ok child => if (fs.nodes child).type ≠ .dir then .error .enotdir else .ok child

/-- The loop of `mcs_split_parent_leaf`; it returns the parent and the name of the leaf. -/
def splitFrom (fs : Ramfs) (cur : ℕ) : List (List UInt8) → Except Err (ℕ × List UInt8)
  | [] => .error .einval
  | [leaf] => if BadLength leaf then .error .einval else .ok (cur, leaf)
  | seg :: next :: rest =>
      match descend fs cur seg with
      | .error rc => .error rc
      | .ok child => splitFrom fs child (next :: rest)

/-- `mcs_split_parent_leaf` -/
def splitParentLeaf (fs : Ramfs) (path : CStr) : Except Err (ℕ × List UInt8) :=
  if path.char 0 ≠ slash then .error .einval
  else if path.char 1 = 0 then .error .einval
  else if maxPath ≤ path.length then .error .enametoolong
  else splitFrom fs 0 (segments (path.bytes.drop 1))

/-- The loop of `mcs_ramfs_lookup`.  Behind a final separator the loop ends with `MCS_EINVAL`, as
for an empty part before. -/
def lookupFrom (fs : Ramfs) (cur : ℕ) : List (List UInt8) → Except Err ℕ
  | [] => .error .einval
  | [seg] => if BadLength seg then .error .einval else findChild fs (fs.nodes cur).id seg
  | seg :: next :: rest =>
      match descend fs cur seg with
      | .error rc => .error rc
      | .ok child => lookupFrom fs child (next :: rest)

/-- `mcs_ramfs_lookup` -/
def lookup (fs : Ramfs) (path : CStr) : Except Err ℕ :=
  if path.char 0 ≠ slash then .error .einval
  else if maxPath ≤ path.length then .error .enametoolong
  else if path.char 1 = 0 then .ok 0
  else lookupFrom fs 0 (segments (path.bytes.drop 1))

theorem findChild_eq_ok {fs : Ramfs} {parent k : ℕ} {name : List UInt8}
    (h : findChild fs parent name = .ok k) : k < fs.nodeCount := by
  unfold findChild at h
  split_ifs at h
  cases hfind : (List.range fs.nodeCount).find? fun i =>
      (fs.nodes i).used && (fs.nodes i).parent == parent && streqN name (fs.nodes i).name with
  | none =>
      rw [hfind] at h
      cases h
  | some i =>
      rw [hfind] at h
      obtain rfl := Except.ok.inj h
      exact List.mem_range.mp (List.mem_of_find?_eq_some hfind)

/-- When a search fails, no child of that name is there. -/
theorem streqN_of_findChild_eq_error {fs : Ramfs} {parent : ℕ} {name : List UInt8} {rc : Err}
    (hname : ¬ BadLength name) (h : findChild fs parent name = .error rc) {i : ℕ}
    (hi : i < fs.nodeCount) (hused : (fs.nodes i).used = true)
    (hparent : (fs.nodes i).parent = parent) :
    streqN name (fs.nodes i).name = false := by
  unfold findChild at h
  rw [if_neg hname] at h
  cases hfind : (List.range fs.nodeCount).find? fun i =>
      (fs.nodes i).used && (fs.nodes i).parent == parent && streqN name (fs.nodes i).name with
  | some i =>
      rw [hfind] at h
      cases h
  | none =>
      have hnot := List.find?_eq_none.mp hfind i (List.mem_range.mpr hi)
      simpa [hused, hparent] using hnot

/-- The parts of a path have the characters of the path, without the separators. -/
theorem mem_segments {path seg : List UInt8} {c : UInt8} (hseg : seg ∈ segments path)
    (hc : c ∈ seg) :
    c ∈ path ∧ c ≠ slash := by
  induction path generalizing seg with
  | nil =>
      rw [segments, List.mem_singleton] at hseg
      rw [hseg] at hc
      cases hc
  | cons d path ih =>
      have hlater : ∀ seg' ∈ segments path, c ∈ seg' → c ∈ d :: path ∧ c ≠ slash :=
        fun seg' hmem hc' =>
        ⟨List.mem_cons_of_mem d (ih hmem hc').1, (ih hmem hc').2⟩
      unfold segments at hseg
      split_ifs at hseg with hd
      · rcases List.mem_cons.mp hseg with rfl | hseg
        · cases hc
        · exact hlater seg hseg hc
      · cases hrest : segments path with
        | nil =>
            rw [hrest, List.mem_singleton] at hseg
            rw [hseg, List.mem_singleton] at hc
            exact ⟨hc ▸ List.mem_cons_self, hc ▸ hd⟩
        | cons first rest =>
            rw [hrest] at hseg hlater
            rcases List.mem_cons.mp hseg with rfl | hseg
            · rcases List.mem_cons.mp hc with rfl | hc
              · exact ⟨List.mem_cons_self, hd⟩
              · exact hlater first List.mem_cons_self hc
            · exact hlater seg (List.mem_cons_of_mem first hseg) hc

theorem descend_lt {fs : Ramfs} {cur child : ℕ} {seg : List UInt8}
    (h : descend fs cur seg = .ok child) : child < fs.nodeCount := by
  unfold descend at h
  split_ifs at h
  cases hfind : findChild fs (fs.nodes cur).id seg with
  | error rc =>
      rw [hfind] at h
      cases h
  | ok found =>
      rw [hfind] at h
      dsimp only at h
      split_ifs at h
      exact Except.ok.inj h ▸ findChild_eq_ok hfind

/-- The two loops over a path agree. -/
theorem lookupFrom_of_splitFrom {fs : Ramfs} {segs : List (List UInt8)} {cur p : ℕ}
    {leaf : List UInt8} (hcur : cur < fs.nodeCount) (h : splitFrom fs cur segs = .ok (p, leaf)) :
    lookupFrom fs cur segs = findChild fs (fs.nodes p).id leaf ∧ p < fs.nodeCount ∧ leaf ∈ segs ∧
      ¬ BadLength leaf := by
  induction segs generalizing cur with
  | nil => cases h
  | cons seg rest ih =>
      cases rest with
      | nil =>
          rw [splitFrom] at h
          by_cases hbad : BadLength seg
          · rw [if_pos hbad] at h
            cases h
          · rw [if_neg hbad] at h
            obtain ⟨rfl, rfl⟩ := Prod.mk.inj (Except.ok.inj h)
            rw [lookupFrom, if_neg hbad]
            exact ⟨rfl, hcur, List.mem_singleton_self seg, hbad⟩
      | cons next rest =>
          rw [splitFrom] at h
          rw [lookupFrom]
          cases hchild : descend fs cur seg with
          | error rc =>
              rw [hchild] at h
              cases h
          | ok child =>
              rw [hchild] at h
              obtain ⟨hlookup, hp, hmem, hleaf⟩ := ih (descend_lt hchild) h
              exact ⟨hlookup, hp, List.mem_cons_of_mem seg hmem, hleaf⟩

theorem lookupFrom_lt {fs : Ramfs} {segs : List (List UInt8)} {cur k : ℕ}
    (h : lookupFrom fs cur segs = .ok k) : k < fs.nodeCount := by
  induction segs generalizing cur with
  | nil => cases h
  | cons seg rest ih =>
      cases rest with
      | nil =>
          rw [lookupFrom] at h
          split_ifs at h
          exact findChild_eq_ok h
      | cons next rest =>
          rw [lookupFrom] at h
          cases hchild : descend fs cur seg with
          | error rc =>
              rw [hchild] at h
              cases h
          | ok child =>
              rw [hchild] at h
              exact ih h

theorem lookup_lt {fs : Ramfs} {path : CStr} {k : ℕ} (hcount : 0 < fs.nodeCount)
    (h : lookup fs path = .ok k) : k < fs.nodeCount := by
  unfold lookup at h
  split_ifs at h
  · exact Except.ok.inj h ▸ hcount
  · exact lookupFrom_lt h

/-- When `mcs_ramfs_lookup` fails and there is a parent for a new node, the name is not taken
there. -/
theorem findChild_of_splitParentLeaf {fs : Ramfs} {path : CStr} {p : ℕ}
    {leaf : List UInt8} {rc : Err} (hcount : 0 < fs.nodeCount)
    (hlookup : lookup fs path = .error rc) (h : splitParentLeaf fs path = .ok (p, leaf)) :
    findChild fs (fs.nodes p).id leaf = .error rc ∧ p < fs.nodeCount ∧ ¬ BadLength leaf ∧
      0 ∉ leaf := by
  unfold splitParentLeaf at h
  unfold lookup at hlookup
  split_ifs at h with hfirst hsecond hlong
  rw [if_neg hfirst, if_neg hlong, if_neg hsecond] at hlookup
  obtain ⟨hagree, hp, hmem, hleaf⟩ := lookupFrom_of_splitFrom hcount h
  refine ⟨hagree.symm.trans hlookup, hp, hleaf, fun hzero => ?_⟩
  exact path.nonzero (List.mem_of_mem_drop (mem_segments hmem hzero).1)

/-! ## Nodes -/

/-- The node that `mcs_alloc_node` fills in. -/
def newNode (fs : Ramfs) (parent : ℕ) (type : VnodeType) (name : List UInt8) (capacity : ℕ) :
    Vnode where
  used := true
  id := fs.nodeCount
  parent := parent
  type := type
  name := copyName name
  size := 0
  dataOffset := if type = .file then fs.dataUsed else 0
  dataCapacity := if type = .file then capacity else 0

/-- `mcs_alloc_node` -/
def allocNode (parent : ℕ) (type : VnodeType) (name : List UInt8) (capacity : ℕ) :
    Act Ramfs Err ℕ := do
  failIf (BadLength name) .einval
  let fs ← get
  failIf (maxNodes ≤ fs.nodeCount) .enospc
  failIf (type = .file ∧ ramfsDataBytes < sizeAdd fs.dataUsed capacity) .enospc
  modify fun fs =>
    { fs with
      nodes := Function.update fs.nodes fs.nodeCount (newNode fs parent type name capacity)
      dataUsed := if type = .file then sizeAdd fs.dataUsed capacity else fs.dataUsed
      nodeCount := fs.nodeCount + 1 }
  pure fs.nodeCount

/-- The root directory that `mcs_ramfs_init` sets up.  Of the name only two bytes are written. -/
def rootNode (old : Vnode) : Vnode where
  used := true
  id := 0
  parent := 0
  type := .dir
  name := old.name.splice 0 2 fun i => if i = 0 then slash else 0
  size := 0
  dataOffset := 0
  dataCapacity := 0

/-- A node that `mcs_ramfs_init` clears. -/
def clearedNode (old : Vnode) : Vnode where
  used := false
  id := 0
  parent := 0
  type := .file
  name := old.name.splice 0 1 fun _ => 0
  size := 0
  dataOffset := 0
  dataCapacity := 0

/-- `mcs_ramfs_init`, on a structure with any contents. -/
def ramfsInit (fs : Ramfs) : Ramfs where
  nodes i := if i = 0 then rootNode (fs.nodes 0) else clearedNode (fs.nodes i)
  nodeCount := 1
  data _ := 0
  dataUsed := 0
  touched := []

/-- `mcs_ramfs_create_file` -/
def createFile (path : CStr) : Act Ramfs Err ℕ := do
  let fs ← get
  match lookup fs path with
  | .ok existing => do
      failIf ((fs.nodes existing).type ≠ .file) .eisdir
      pure existing
  | .error _ =>
      match splitParentLeaf fs path with
      | .error rc => fail rc
      | .ok (parent, leaf) => do
          failIf ((fs.nodes parent).type ≠ .dir) .enotdir
          allocNode (fs.nodes parent).id .file leaf 256

/-- The filesystem after the size of node `k` was set. -/
def resize (fs : Ramfs) (k n : ℕ) : Ramfs :=
  { fs with nodes := Function.update fs.nodes k { fs.nodes k with size := n } }

/-- Changes the size of a node. -/
def setSize (node size : ℕ) : Act Ramfs Err Unit := modify fun fs => resize fs node size

theorem setSize_apply (fs : Ramfs) (k n : ℕ) : setSize k n fs = (.ok (), resize fs k n) := rfl

theorem resize_node (fs : Ramfs) (k n : ℕ) :
    (resize fs k n).nodes k = { fs.nodes k with size := n } :=
  Function.update_self ..

theorem resize_node_of_ne (fs : Ramfs) {k i : ℕ} (n : ℕ) (hi : i ≠ k) :
    (resize fs k n).nodes i = fs.nodes i := Function.update_of_ne hi ..

theorem resize_self (fs : Ramfs) (k : ℕ) : resize fs k (fs.nodes k).size = fs := by
  have hnodes : Function.update fs.nodes k { fs.nodes k with size := (fs.nodes k).size } =
      fs.nodes :=
    Function.update_eq_self ..
  rw [resize, hnodes]

/-- `mcs_ramfs_seed_file` -/
def seedFile (path : CStr) (data : List UInt8) : Act Ramfs Err Unit := do
  let node ← createFile path
  let fs ← get
  failIf ((fs.nodes node).dataCapacity < data.length) .enospc
  copyBytes (fs.nodes node).dataOffset data
  setSize node data.length

end Mcsos.Vfs
