import Mcsos.Vfs.Ramfs

/-!
# File descriptors

A table of descriptors for each process; the tables share the filesystem.  A descriptor has an
offset of its own, which `mcs_vfs_lseek` can put anywhere, also behind the end of the file.
-/

namespace Mcsos.Vfs

open Act

/-- `MCS_MAX_OPEN_FILES` -/
def maxOpenFiles : ℕ := 16

def oRdonly : UInt32 := 0x0001
def oWronly : UInt32 := 0x0002
def oRdwr : UInt32 := 0x0004
def oCreat : UInt32 := 0x0100
def oTrunc : UInt32 := 0x0200
def oAppend : UInt32 := 0x0400

/-- `struct mcs_file`.  The pointer to the filesystem is null just when the one to the node is. -/
structure File where
  used : Bool
  flags : UInt32
  offset : ℕ
  node : Option ℕ
  deriving DecidableEq, Repr

/-- `struct mcs_fd_table` -/
abbrev FdTable : Type := Fin maxOpenFiles → File

/-- The entry of a descriptor that is not in use. -/
def closedFile : File := ⟨false, 0, 0, none⟩

/-- `mcs_fd_table_init` -/
def fdTableInit : FdTable := fun _ => closedFile

/-- `mcs_can_read` -/
def canRead (flags : UInt32) : Bool := flags &&& oRdonly ≠ 0 || flags &&& oRdwr ≠ 0

/-- `mcs_can_write` -/
def canWrite (flags : UInt32) : Bool := flags &&& oWronly ≠ 0 || flags &&& oRdwr ≠ 0

/-- What a call through a descriptor table works on. -/
structure Env where
  fs : Ramfs
  table : FdTable

/-- A call of the filesystem. -/
def onFs {α : Type} (x : Act Ramfs Err α) : Act Env Err α := fun s =>
  ((x s.fs).1, { s with fs := (x s.fs).2 })

/-- Changes the entry of a descriptor. -/
def setFile (i : Fin maxOpenFiles) (f : File → File) : Act Env Err Unit :=
  modify fun s => { s with table := Function.update s.table i (f (s.table i)) }

/-- The value of an option, or an error. -/
def orFail {σ α : Type} (o : Option α) (e : Err) : Act σ Err α :=
  match o with
  | none => fail e
  | some a => pure a

/-- `mcs_fd_get` -/
def fdGet (table : FdTable) (fd : Int) : Option (Fin maxOpenFiles) :=
  if h : 0 ≤ fd ∧ fd.toNat < maxOpenFiles then
    if (table ⟨fd.toNat, h.2⟩).used then some ⟨fd.toNat, h.2⟩ else none
  else none

/-- `mcs_fd_alloc` -/
def fdAlloc : Act Env Err (Fin maxOpenFiles) := do
  let s ← get
  let i ← orFail ((List.finRange maxOpenFiles).find? fun i => !(s.table i).used) .enfile
  setFile i fun file => { file with used := true }
  pure i

/-- The node of the path of `mcs_vfs_open`. -/
def openNode (path : CStr) (flags : UInt32) : Act Ramfs Err ℕ := do
  let fs ← get
  match lookup fs path with
  | .ok node => pure node
  | .error rc => do
      failIf (flags &&& oCreat = 0) rc
      createFile path

/-- The flags of `mcs_vfs_open` with the default for the kind of access. -/
def openFlags (flags : UInt32) : UInt32 :=
  if flags &&& (oRdonly ||| oWronly ||| oRdwr) = 0 then flags ||| oRdonly else flags

/-- The part of `mcs_vfs_open` after the node was found, with the final flags. -/
def openFile (node : ℕ) (flags : UInt32) : Act Env Err ℕ := do
  let s ← get
  failIf ((s.fs.nodes node).type = .dir ∧ canWrite flags = true) .eisdir
  let fd ← fdAlloc
  setFile fd fun file =>
    { file with
      flags := flags, node := some node
      offset := if flags &&& oAppend ≠ 0 then (s.fs.nodes node).size else 0 }
  if flags &&& oTrunc ≠ 0 then
    if canWrite flags = false then
      setFile fd fun file => { file with used := false, node := none }
      fail .eacces
    else
      onFs (setSize node 0)
      setFile fd fun file => { file with offset := 0 }
      pure fd.val
  else pure fd.val

/-- `mcs_vfs_open` -/
def vfsOpen (path : CStr) (flags : UInt32) : Act Env Err ℕ := do
  let node ← onFs (openNode path (openFlags flags))
  openFile node (openFlags flags)

/-- `mcs_vfs_read`; it returns the bytes that are copied to the buffer. -/
def vfsRead (fd : Int) (len : ℕ) : Act Env Err (List UInt8) := do
  let s ← get
  let i ← orFail (fdGet s.table fd) .ebadf
  let file := s.table i
  failIf (canRead file.flags = false) .eacces
  let k ← orFail file.node .einval
  let node := s.fs.nodes k
  failIf (node.type = .dir) .eisdir
  if node.size ≤ file.offset then pure []
  else
    let n := min len (node.size - file.offset)
    let bytes ← onFs (copyToUser (sizeAdd node.dataOffset file.offset) n)
    setFile i fun file => { file with offset := sizeAdd file.offset n }
    pure bytes

/-- The offset that `mcs_vfs_write` starts with. -/
def writeOffset (file : File) (size : ℕ) : ℕ :=
  if file.flags &&& oAppend ≠ 0 then size else file.offset

/-- `mcs_vfs_write` of the bytes in the buffer; it returns their number. -/
def vfsWrite (fd : Int) (buf : List UInt8) : Act Env Err ℕ := do
  let s ← get
  let i ← orFail (fdGet s.table fd) .ebadf
  let file := s.table i
  failIf (canWrite file.flags = false) .eacces
  let k ← orFail file.node .einval
  let node := s.fs.nodes k
  failIf (node.type = .dir) .eisdir
  let offset := writeOffset file node.size
  setFile i fun file => { file with offset := offset }
  failIf (node.dataCapacity < offset) .einval
  let n := min buf.length (node.dataCapacity - offset)
  failIf (n < buf.length) .enospc
  onFs (copyBytes (sizeAdd node.dataOffset offset) (buf.take n))
  setFile i fun file => { file with offset := sizeAdd offset n }
  if node.size < sizeAdd offset n then onFs (setSize k (sizeAdd offset n))
  pure n

/-- A value of type `long`; where the sum of two of them overflows, it wraps around. -/
def toLong (n : Int) : Int := n.bmod (2 ^ 64)

/-- A value of type `int`. -/
def toInt (n : Int) : Int := n.bmod (2 ^ 32)

/-- The position that `mcs_vfs_lseek` counts from. -/
def seekBase (file : File) (node : Vnode) (whence : Int) : Option Int :=
  if whence = 0 then some 0
  else if whence = 1 then some (toLong file.offset)
  else if whence = 2 then some (toLong node.size)
  else none

/-- `mcs_vfs_lseek` -/
def vfsLseek (fd : Int) (offset : Int) (whence : Int) : Act Env Err Int := do
  let s ← get
  let i ← orFail (fdGet s.table fd) .ebadf
  let file := s.table i
  let k ← orFail file.node .eisdir
  let node := s.fs.nodes k
  failIf (node.type = .dir) .eisdir
  let base ← orFail (seekBase file node whence) .einval
  let next := toLong (base + offset)
  failIf (next < 0) .einval
  setFile i fun file => { file with offset := next.toNat }
  pure (toInt next)

/-- `mcs_vfs_close` -/
def vfsClose (fd : Int) : Act Env Err Unit := do
  let s ← get
  let i ← orFail (fdGet s.table fd) .ebadf
  setFile i fun _ => closedFile

/-- `mcs_vfs_dup` -/
def vfsDup (fd : Int) : Act Env Err ℕ := do
  let s ← get
  let i ← orFail (fdGet s.table fd) .ebadf
  let newfd ← fdAlloc
  let file := s.table i
  setFile newfd fun entry =>
    { entry with flags := file.flags, offset := file.offset, node := file.node }
  pure newfd.val

/-! ## The system -/

/-- A filesystem with a descriptor table for each process. -/
structure State (ι : Type) where
  fs : Ramfs
  tables : ι → FdTable

/-- A call. -/
inductive Op (ι : Type) where
  | create (path : CStr)
  | seed (path : CStr) (data : List UInt8)
  | open (t : ι) (path : CStr) (flags : UInt32)
  | read (t : ι) (fd : Int) (len : ℕ)
  | write (t : ι) (fd : Int) (buf : List UInt8)
  | lseek (t : ι) (fd : Int) (offset whence : Int)
  | dup (t : ι) (fd : Int)
  | close (t : ι) (fd : Int)

variable {ι : Type} [DecidableEq ι]

/-- A call on the table `t`. -/
def onTable {α : Type} (t : ι) (x : Act Env Err α) (s : State ι) : State ι :=
  let env := (x ⟨s.fs, s.tables t⟩).2
  ⟨env.fs, Function.update s.tables t env.table⟩

/-- The state after a call. -/
def exec (op : Op ι) (s : State ι) : State ι :=
  match op with
  | .create path => { s with fs := (createFile path s.fs).2 }
  | .seed path data => { s with fs := (seedFile path data s.fs).2 }
  | .open t path flags => onTable t (vfsOpen path flags) s
  | .read t fd len => onTable t (vfsRead fd len) s
  | .write t fd buf => onTable t (vfsWrite fd buf) s
  | .lseek t fd offset whence => onTable t (vfsLseek fd offset whence) s
  | .dup t fd => onTable t (vfsDup fd) s
  | .close t fd => onTable t (vfsClose fd) s

/-- The state after `mcs_ramfs_init` and `mcs_fd_table_init` for each table. -/
def start (fs : Ramfs) : State ι := ⟨ramfsInit fs, fun _ => fdTableInit⟩

/-- The state after a sequence of calls. -/
def run (ops : List (Op ι)) (s : State ι) : State ι := ops.foldl (fun s op => exec op s) s

end Mcsos.Vfs
