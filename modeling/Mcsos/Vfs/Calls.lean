import Mcsos.Vfs.Layout
import Mathlib.Data.List.FinRange

/-!
# What the calls do

For each call a lemma with all its outcomes: what it returns, and the filesystem and the descriptor
table after it.  The failures of a call with different error codes are one case where they
leave the same state behind.
-/

namespace Mcsos.Vfs

open Act

variable {env : Env} {fs : Ramfs} {table : FdTable} {path : CStr} {k count : ℕ} {fd : Int}
  {i : Fin maxOpenFiles}

/-- Every descriptor in use is for a node. -/
def TableOk (count : ℕ) (table : FdTable) : Prop :=
  ∀ i, (table i).used = true → ∃ k < count, (table i).node = some k

theorem TableOk.mono (h : TableOk count table) {count' : ℕ} (hle : count ≤ count') :
    TableOk count' table := by
  intro i hi
  obtain ⟨k, hk, hnode⟩ := h i hi
  exact ⟨k, Nat.lt_of_lt_of_le hk hle, hnode⟩

theorem TableOk.update (h : TableOk count table) (i : Fin maxOpenFiles) {file : File}
    (hfile : file.used = true → ∃ k < count, file.node = some k) :
    TableOk count (Function.update table i file) := by
  intro j hj
  rcases eq_or_ne j i with rfl | hne
  · rw [Function.update_self] at hj ⊢
    exact hfile hj
  · rw [Function.update_of_ne hne] at hj ⊢
    exact h j hj

/-- The same descriptors are in use, with the same entries. -/
def SameOpen (table table' : FdTable) : Prop :=
  ∀ i, (table' i).used = (table i).used ∧ ((table i).used = true → table' i = table i)

theorem SameOpen.refl (table : FdTable) : SameOpen table table := fun _ => ⟨rfl, fun _ => rfl⟩

/-- The entry of a descriptor that is not in use may change. -/
theorem SameOpen.update (hfree : (table i).used = false) {file : File} (hfile : file.used = false) :
    SameOpen table (Function.update table i file) := by
  intro j
  rcases eq_or_ne j i with rfl | hne
  · rw [Function.update_self, hfree, hfile]
    exact ⟨rfl, fun hused => nomatch hused⟩
  · rw [Function.update_of_ne hne]
    exact ⟨rfl, fun _ => rfl⟩

theorem TableOk.sameOpen (h : TableOk count table) {table' : FdTable}
    (hsame : SameOpen table table') :
    TableOk count table' := by
  intro i hi
  have hused : (table i).used = true := (hsame i).1 ▸ hi
  rw [(hsame i).2 hused]
  exact h i hused

/-- What the calls rely on. -/
structure EnvOk (env : Env) : Prop where
  layout : Layout env.fs
  table : TableOk env.fs.nodeCount env.table

theorem onFs_of_ok {α : Type} {x : Act Ramfs Err α} {a : α} {fs' : Ramfs}
    (h : x env.fs = (.ok a, fs')) :
    onFs x env = (.ok a, ⟨fs', env.table⟩) := by
  rw [onFs, h]

theorem onFs_of_error {α : Type} {x : Act Ramfs Err α} {rc : Err} {fs' : Ramfs}
    (h : x env.fs = (.error rc, fs')) : onFs x env = (.error rc, ⟨fs', env.table⟩) := by
  rw [onFs, h]

theorem setFile_apply (i : Fin maxOpenFiles) (f : File → File) :
    setFile i f ⟨fs, table⟩ = (.ok (), ⟨fs, Function.update table i (f (table i))⟩) := rfl

/-- An entry is changed again. -/
theorem setFile_update (i : Fin maxOpenFiles) (f : File → File) (file : File) :
    setFile i f ⟨fs, Function.update table i file⟩ =
      (.ok (), ⟨fs, Function.update table i (f file)⟩) := by
  rw [setFile_apply, Function.update_self, Function.update_idem]

theorem orFail_some_bind {σ α γ : Type} {e : Err} (a : α) (f : α → Act σ Err γ) :
    ((orFail (some a) e : Act σ Err α) >>= f) = f a := rfl

/-! ## Descriptors -/

theorem fdGet_eq_some_iff :
    fdGet table fd = some i ↔ fd = (i.val : Int) ∧ (table i).used = true := by
  unfold fdGet
  constructor
  · intro h
    split_ifs at h with hrange hused
    obtain rfl := Option.some.inj h
    exact ⟨(Int.toNat_of_nonneg hrange.1).symm, hused⟩
  · rintro ⟨rfl, hused⟩
    have hrange : 0 ≤ (i.val : Int) ∧ (i.val : Int).toNat < maxOpenFiles :=
      ⟨Int.natCast_nonneg _, by rw [Int.toNat_natCast]; exact i.isLt⟩
    have hslot : (⟨(i.val : Int).toNat, hrange.2⟩ : Fin maxOpenFiles) = i :=
      Fin.ext (Int.toNat_natCast _)
    rw [dif_pos hrange, hslot, if_pos hused]

theorem fdGet_used (h : fdGet table fd = some i) : (table i).used = true :=
  (fdGet_eq_some_iff.mp h).2

theorem EnvOk.node (h : EnvOk env) (hi : fdGet env.table fd = some i) :
    ∃ k < env.fs.nodeCount, (env.table i).node = some k := h.table i (fdGet_used hi)

theorem EnvOk.file_pos (h : EnvOk env) (hk : k < env.fs.nodeCount)
    (hfile : (env.fs.nodes k).type ≠ .dir) :
    0 < k := by
  rw [Nat.pos_iff_ne_zero, Ne, ← h.layout.type_eq_dir hk]
  exact hfile

theorem fdAlloc_cases (env : Env) :
    ((∀ i, (env.table i).used = true) ∧ fdAlloc env = (.error .enfile, env)) ∨
      ∃ i, (env.table i).used = false ∧
        fdAlloc env =
          (.ok i, ⟨env.fs, Function.update env.table i { env.table i with used := true }⟩) := by
  unfold fdAlloc
  rw [get_bind_apply]
  cases hfind : (List.finRange maxOpenFiles).find? fun i => !(env.table i).used with
  | none =>
      refine Or.inl ⟨fun i => ?_, rfl⟩
      simpa using List.find?_eq_none.mp hfind i (List.mem_finRange i)
  | some i =>
      have hfree := List.find?_some hfind
      exact Or.inr ⟨i, by simpa using hfree, rfl⟩

/-! ## Opening -/

theorem openNode_cases (h : Layout fs) (path : CStr) (flags : UInt32) :
    (∃ rc, openNode path flags fs = (.error rc, fs)) ∨
      ∃ k fs', openNode path flags fs = (.ok k, fs') ∧ Found fs path k fs' := by
  unfold openNode
  rw [get_bind_apply]
  cases hlookup : lookup fs path with
  | ok k => exact Or.inr ⟨k, fs, rfl, .old hlookup (lookup_lt h.count_pos hlookup)⟩
  | error rc =>
      by_cases hcreat : flags &&& oCreat = 0
      · exact Or.inl ⟨rc, failIf_bind_of_pos hcreat _ fs⟩
      · have hrun :
            (failIf (flags &&& oCreat = 0) rc >>= fun _ => createFile path : Act Ramfs Err ℕ) fs =
            createFile path fs := by
          rw [failIf_bind_of_not hcreat]
        rcases createFile_cases h path with ⟨rc', hcreate⟩ | ⟨k, fs', hcreate, -, hfound⟩
        · exact Or.inl ⟨rc', hrun.trans hcreate⟩
        · exact Or.inr ⟨k, fs', hrun.trans hcreate, hfound⟩

/-- Node `k` cannot be opened: a directory for writing, without a free descriptor, or to truncate it
without write access. -/
def OpenFails (env : Env) (k : ℕ) (flags : UInt32) : Prop :=
  ((env.fs.nodes k).type = .dir ∧ canWrite flags = true) ∨ (∀ i, (env.table i).used = true) ∨
    (flags &&& oTrunc ≠ 0 ∧ canWrite flags = false)

theorem openFile_cases (h : EnvOk env) (hk : k < env.fs.nodeCount) (flags : UInt32) :
    (OpenFails env k flags ∧ ∃ rc table', openFile k flags env = (.error rc, ⟨env.fs, table'⟩) ∧
        SameOpen env.table table') ∨
      (¬ OpenFails env k flags ∧ ∃ i offset, (env.table i).used = false ∧
        openFile k flags env =
          (.ok i.val, ⟨if flags &&& oTrunc ≠ 0 then resize env.fs k 0 else env.fs,
            Function.update env.table i ⟨true, flags, offset, some k⟩⟩) ∧
        (flags &&& oTrunc ≠ 0 → 0 < k)) := by
  obtain ⟨fs, table⟩ := env
  unfold openFile
  rw [get_bind_apply]
  by_cases hdir : (fs.nodes k).type = .dir ∧ canWrite flags = true
  · exact Or.inl ⟨Or.inl hdir, .eisdir, table, failIf_bind_of_pos hdir _ _, SameOpen.refl table⟩
  rw [failIf_bind_of_not hdir]
  rcases fdAlloc_cases ⟨fs, table⟩ with ⟨hfull, halloc⟩ | ⟨i, hfree, halloc⟩
  · exact Or.inl ⟨Or.inr (Or.inl hfull), .enfile, table, bind_of_error halloc _,
      SameOpen.refl table⟩
  have hsome : ¬ ∀ j, (table j).used = true := fun hfull => by
    rw [hfull i] at hfree
    cases hfree
  rw [bind_of_ok halloc, bind_of_ok (setFile_update ..)]
  by_cases htrunc : flags &&& oTrunc ≠ 0
  · simp only [if_pos htrunc]
    by_cases haccess : canWrite flags = false
    · -- the slot is given back
      rw [if_pos haccess, bind_of_ok (setFile_update ..)]
      exact Or.inl ⟨Or.inr (Or.inr ⟨htrunc, haccess⟩), .eacces, _, rfl, SameOpen.update hfree rfl⟩
    · have hwrite : canWrite flags = true := by simpa using haccess
      have hpos : 0 < k := by
        rw [Nat.pos_iff_ne_zero, Ne, ← h.layout.type_eq_dir hk]
        exact fun htype => hdir ⟨htype, hwrite⟩
      have hopens : ¬ OpenFails ⟨fs, table⟩ k flags := by
        rintro (hd | hfull | ⟨-, hno⟩)
        · exact hdir hd
        · exact hsome hfull
        · exact haccess hno
      rw [if_neg haccess, bind_of_ok (onFs_of_ok (setSize_apply ..)),
        bind_of_ok (setFile_update ..)]
      exact Or.inr ⟨hopens, i, 0, hfree, rfl, fun _ => hpos⟩
  · have hopens : ¬ OpenFails ⟨fs, table⟩ k flags := by
      rintro (hd | hfull | ⟨ht, -⟩)
      · exact hdir hd
      · exact hsome hfull
      · exact htrunc ht
    simp only [if_neg htrunc]
    exact Or.inr ⟨hopens, i, _, hfree, rfl, fun h => absurd h htrunc⟩

/-- `mcs_vfs_open` fails, or opens a node that is there, or one that it has added. -/
theorem vfsOpen_cases (h : EnvOk env) (path : CStr) (flags : UInt32) :
    (∃ rc, openNode path (openFlags flags) env.fs = (.error rc, env.fs) ∧
        vfsOpen path flags env = (.error rc, env)) ∨
      ∃ k fs', openNode path (openFlags flags) env.fs = (.ok k, fs') ∧ Found env.fs path k fs' ∧
        ((OpenFails ⟨fs', env.table⟩ k (openFlags flags) ∧
            ∃ rc table', vfsOpen path flags env = (.error rc, ⟨fs', table'⟩) ∧
              SameOpen env.table table') ∨
          (¬ OpenFails ⟨fs', env.table⟩ k (openFlags flags) ∧
            ∃ i offset, (env.table i).used = false ∧
              vfsOpen path flags env =
                (.ok i.val, ⟨if openFlags flags &&& oTrunc ≠ 0 then resize fs' k 0 else fs',
                  Function.update env.table i ⟨true, openFlags flags, offset, some k⟩⟩) ∧
              (openFlags flags &&& oTrunc ≠ 0 → 0 < k))) := by
  unfold vfsOpen
  rcases openNode_cases h.layout path (openFlags flags) with ⟨rc, hnode⟩ | ⟨k, fs', hnode, hfound⟩
  · exact Or.inl ⟨rc, hnode, bind_of_error (onFs_of_error hnode) _⟩
  · have hlocal := hfound.toLocal h.layout
    have henv : EnvOk ⟨fs', env.table⟩ := ⟨hlocal.layout, h.table.mono hlocal.count⟩
    rw [bind_of_ok (onFs_of_ok hnode)]
    exact Or.inr ⟨k, fs', hnode, hfound, openFile_cases henv hfound.lt (openFlags flags)⟩

/-! ## Seeding -/

/-- The filesystem after file `k` was given the contents `data`. -/
def seeded (fs : Ramfs) (k : ℕ) (data : List UInt8) : Ramfs :=
  resize (store fs (fs.nodes k).dataOffset data) k data.length

theorem seedFile_cases (h : Layout fs) (path : CStr) (data : List UInt8) :
    (∃ rc, createFile path fs = (.error rc, fs) ∧ seedFile path data fs = (.error rc, fs)) ∨
      ∃ k fs', createFile path fs = (.ok k, fs') ∧ 0 < k ∧ Found fs path k fs' ∧
        ((256 < data.length ∧ seedFile path data fs = (.error .enospc, fs')) ∨
          (seedFile path data fs = (.ok (), seeded fs' k data) ∧ data.length ≤ 256)) := by
  unfold seedFile
  rcases createFile_cases h path with ⟨rc, hrun⟩ | ⟨k, fs', hrun, hpos, hfound⟩
  · exact Or.inl ⟨rc, hrun, bind_of_error hrun _⟩
  · have hcap := ((hfound.toLocal h).layout.file k hpos hfound.lt).dataCapacity
    refine Or.inr ⟨k, fs', hrun, hpos, hfound, ?_⟩
    rw [bind_of_ok hrun, get_bind_apply]
    by_cases hfull : (fs'.nodes k).dataCapacity < data.length
    · exact Or.inl ⟨by omega, failIf_bind_of_pos hfull _ fs'⟩
    · rw [failIf_bind_of_not hfull, bind_of_ok (copyBytes_apply ..)]
      exact Or.inr ⟨rfl, by omega⟩

/-! ## Reading -/

/-- The part of a file that `mcs_vfs_read` copies. -/
theorem map_range'_content (fs : Ramfs) (k o len : ℕ) :
    (List.range' ((fs.nodes k).dataOffset + o) (min len ((fs.nodes k).size - o))).map fs.data =
      ((content fs k).drop o).take len := by
  rw [content, ← List.map_drop, ← List.map_take, List.drop_range', Nat.mul_one]
  rcases Nat.le_total len ((fs.nodes k).size - o) with hlen | hlen
  · rw [List.take_range'_of_length_ge hlen, Nat.min_eq_left hlen]
  · rw [List.take_range'_of_length_le hlen, Nat.min_eq_right hlen]

theorem Layout.sizeAdd_offset (h : Layout fs) (hk : k < fs.nodeCount) {o : ℕ} (ho : o ≤ 256) :
    sizeAdd (fs.nodes k).dataOffset o = (fs.nodes k).dataOffset + o := by
  have hcount := h.count_le
  have hoffset : (fs.nodes k).dataOffset ≤ 8192 := by
    rcases Nat.eq_zero_or_pos k with rfl | hpos
    · rw [h.root.dataOffset]
      omega
    · rw [(h.file k hpos hk).dataOffset]
      omega
  exact Nat.mod_eq_of_lt (by omega)

theorem vfsRead_cases (h : EnvOk env) (fd : Int) (len : ℕ) :
    (∃ rc, vfsRead fd len env = (.error rc, env)) ∨
      ∃ i k env', fdGet env.table fd = some i ∧ (env.table i).node = some k ∧ 0 < k ∧
        k < env.fs.nodeCount ∧
        vfsRead fd len env =
          (.ok (((content env.fs k).drop (env.table i).offset).take len), env') ∧
        (env' = env ∨
          ∃ n, (env.table i).offset + n ≤ (env.fs.nodes k).size ∧
            env' = ⟨touch env.fs ((env.fs.nodes k).dataOffset + (env.table i).offset) n,
              Function.update env.table i
                { env.table i with offset := (env.table i).offset + n }⟩) := by
  unfold vfsRead
  rw [get_bind_apply]
  cases hi : fdGet env.table fd with
  | none => exact Or.inl ⟨.ebadf, rfl⟩
  | some i =>
      obtain ⟨k, hk, hnode⟩ := h.node hi
      rw [orFail_some_bind]
      by_cases haccess : canRead (env.table i).flags = false
      · exact Or.inl ⟨.eacces, failIf_bind_of_pos haccess _ env⟩
      rw [failIf_bind_of_not haccess, hnode, orFail_some_bind]
      by_cases hdir : (env.fs.nodes k).type = .dir
      · exact Or.inl ⟨.eisdir, failIf_bind_of_pos hdir _ env⟩
      have hpos := h.file_pos hk hdir
      rw [failIf_bind_of_not hdir]
      have hsize := (h.layout.file k hpos hk).size
      by_cases hend : (env.fs.nodes k).size ≤ (env.table i).offset
      · refine Or.inr ⟨i, k, env, rfl, hnode, hpos, hk, ?_, Or.inl rfl⟩
        have hnone : (content env.fs k).drop (env.table i).offset = [] := by
          rw [List.drop_eq_nil_iff, content, List.length_map, List.length_range']
          exact hend
        rw [if_pos hend, hnone, List.take_nil]
        rfl
      · have hoffset := h.layout.sizeAdd_offset hk (o := (env.table i).offset) (by omega)
        have hsum : sizeAdd (env.table i).offset
            (min len ((env.fs.nodes k).size - (env.table i).offset)) =
            (env.table i).offset + min len ((env.fs.nodes k).size - (env.table i).offset) :=
          Nat.mod_eq_of_lt (by omega)
        refine Or.inr ⟨i, k, _, rfl, hnode, hpos, hk, ?_,
          Or.inr ⟨min len ((env.fs.nodes k).size - (env.table i).offset), by omega, rfl⟩⟩
        rw [if_neg hend, hoffset, bind_of_ok (onFs_of_ok (copyToUser_apply ..)),
          bind_of_ok (setFile_apply ..), map_range'_content, hsum]
        rfl

/-! ## Writing -/

/-- A call of `mcs_vfs_write` that succeeds, through slot `i` to node `k`. -/
structure Writes (env : Env) (fd : Int) (len : ℕ) (i : Fin maxOpenFiles) (k : ℕ) : Prop where
  slot : fdGet env.table fd = some i
  access : canWrite (env.table i).flags = true
  node : (env.table i).node = some k
  file : (env.fs.nodes k).type ≠ .dir
  fits : writeOffset (env.table i) (env.fs.nodes k).size + len ≤ (env.fs.nodes k).dataCapacity

/-- A call of `mcs_vfs_write` that gets to file `k` through slot `i`, whether there is room or
not. -/
structure Reaches (env : Env) (fd : Int) (i : Fin maxOpenFiles) (k : ℕ) : Prop where
  slot : fdGet env.table fd = some i
  access : canWrite (env.table i).flags = true
  node : (env.table i).node = some k
  file : (env.fs.nodes k).type ≠ .dir

theorem Writes.reaches {len : ℕ} (hw : Writes env fd len i k) : Reaches env fd i k :=
  ⟨hw.slot, hw.access, hw.node, hw.file⟩

theorem Reaches.unique {i' : Fin maxOpenFiles} {k' : ℕ} (h : Reaches env fd i k)
    (h' : Reaches env fd i' k') : i' = i ∧ k' = k := by
  obtain rfl := Option.some.inj (h.slot.symm.trans h'.slot)
  exact ⟨rfl, Option.some.inj (h'.node.symm.trans h.node)⟩

/-- The filesystem after `buf` was written to node `k` at `o`. -/
def written (fs : Ramfs) (k o : ℕ) (buf : List UInt8) : Ramfs :=
  resize (store fs ((fs.nodes k).dataOffset + o) buf) k (max (fs.nodes k).size (o + buf.length))

theorem Writes.unique {len : ℕ} {i' : Fin maxOpenFiles} {k' : ℕ} (h : Writes env fd len i k)
    (h' : Writes env fd len i' k') : i' = i ∧ k' = k := h.reaches.unique h'.reaches

theorem Reaches.lt (hr : Reaches env fd i k) (h : EnvOk env) : k < env.fs.nodeCount := by
  obtain ⟨k', hk, hnode⟩ := h.node hr.slot
  rwa [Option.some.inj (hnode.symm.trans hr.node)] at hk

/-- The part of `mcs_vfs_write` that comes after the checks of the descriptor. -/
theorem Reaches.vfsWrite_apply (hr : Reaches env fd i k) (buf : List UInt8) :
    vfsWrite fd buf env =
      (do
        let offset := writeOffset (env.table i) (env.fs.nodes k).size
        failIf ((env.fs.nodes k).dataCapacity < offset) .einval
        let n := min buf.length ((env.fs.nodes k).dataCapacity - offset)
        failIf (n < buf.length) .enospc
        onFs (copyBytes (sizeAdd (env.fs.nodes k).dataOffset offset) (buf.take n))
        setFile i fun file => { file with offset := sizeAdd offset n }
        if (env.fs.nodes k).size < sizeAdd offset n then onFs (setSize k (sizeAdd offset n))
        pure n : Act Env Err ℕ)
      ⟨env.fs, Function.update env.table i { env.table i with
        offset := writeOffset (env.table i) (env.fs.nodes k).size }⟩ := by
  have haccess : ¬ canWrite (env.table i).flags = false := by
    rw [hr.access]
    exact Bool.true_eq_false_eq_False
  unfold vfsWrite
  rw [get_bind_apply, hr.slot, orFail_some_bind, failIf_bind_of_not haccess, hr.node,
    orFail_some_bind, failIf_bind_of_not hr.file, bind_of_ok (setFile_apply ..)]

theorem Writes.vfsWrite_eq {buf : List UInt8} (hw : Writes env fd buf.length i k) (h : EnvOk env)
    (hk : k < env.fs.nodeCount) :
    vfsWrite fd buf env =
      (.ok buf.length,
        ⟨written env.fs k (writeOffset (env.table i) (env.fs.nodes k).size) buf,
          Function.update env.table i { env.table i with
            offset := writeOffset (env.table i) (env.fs.nodes k).size + buf.length }⟩) := by
  have hcap := (h.layout.file k (h.file_pos hk hw.file) hk).dataCapacity
  have hfits := hw.fits
  rw [hw.reaches.vfsWrite_apply]
  generalize ho : writeOffset (env.table i) (env.fs.nodes k).size = o at hfits ⊢
  have hn : min buf.length ((env.fs.nodes k).dataCapacity - o) = buf.length := by omega
  have hoffset := h.layout.sizeAdd_offset hk (o := o) (by omega)
  have hsum : sizeAdd o buf.length = o + buf.length := Nat.mod_eq_of_lt (by omega)
  rw [failIf_bind_of_not (by omega), hn, failIf_bind_of_not (Nat.lt_irrefl _),
    List.take_length, hoffset, hsum, bind_of_ok (onFs_of_ok (copyBytes_apply ..)),
    bind_of_ok (setFile_update ..)]
  by_cases hgrows : (env.fs.nodes k).size < o + buf.length
  · rw [if_pos hgrows, bind_of_ok (onFs_of_ok (setSize_apply ..)), written,
      Nat.max_eq_right (Nat.le_of_lt hgrows)]
    rfl
  · have hsame : ∀ start, resize (store env.fs start buf) k (env.fs.nodes k).size =
        store env.fs start buf :=
      fun start => resize_self (store env.fs start buf) k
    rw [if_neg hgrows, written, Nat.max_eq_left (Nat.le_of_not_lt hgrows), hsame]
    rfl

/-- Without enough room the offset is moved before the call fails. -/
theorem Reaches.vfsWrite_full (hr : Reaches env fd i k) {buf : List UInt8}
    (hfull : (env.fs.nodes k).dataCapacity <
      writeOffset (env.table i) (env.fs.nodes k).size + buf.length) :
    vfsWrite fd buf env =
      (.error (if (env.fs.nodes k).dataCapacity < writeOffset (env.table i) (env.fs.nodes k).size
        then .einval else .enospc),
        ⟨env.fs, Function.update env.table i { env.table i with
          offset := writeOffset (env.table i) (env.fs.nodes k).size }⟩) := by
  rw [hr.vfsWrite_apply]
  generalize ho : writeOffset (env.table i) (env.fs.nodes k).size = o at hfull ⊢
  by_cases hbehind : (env.fs.nodes k).dataCapacity < o
  · rw [failIf_bind_of_pos hbehind, if_pos hbehind]
  · have hmin : min buf.length ((env.fs.nodes k).dataCapacity - o) < buf.length := by omega
    rw [failIf_bind_of_not hbehind, failIf_bind_of_pos hmin, if_neg hbehind]

/-- A call that does not get to a file leaves everything as it is. -/
theorem vfsWrite_of_not_reaches (h : EnvOk env) (buf : List UInt8)
    (hno : ∀ i k, ¬ Reaches env fd i k) :
    ∃ rc, vfsWrite fd buf env = (.error rc, env) := by
  unfold vfsWrite
  rw [get_bind_apply]
  cases hi : fdGet env.table fd with
  | none => exact ⟨.ebadf, rfl⟩
  | some i =>
      obtain ⟨k, hk, hnode⟩ := h.node hi
      rw [orFail_some_bind]
      by_cases haccess : canWrite (env.table i).flags = false
      · exact ⟨.eacces, failIf_bind_of_pos haccess _ env⟩
      rw [failIf_bind_of_not haccess, hnode, orFail_some_bind]
      by_cases hdir : (env.fs.nodes k).type = .dir
      · exact ⟨.eisdir, failIf_bind_of_pos hdir _ env⟩
      · exact absurd ⟨hi, by simpa using haccess, hnode, hdir⟩ (hno i k)

/-- A call of `mcs_vfs_write` succeeds just when all its checks do.  It may have moved the offset
before a check fails. -/
theorem vfsWrite_cases (h : EnvOk env) (fd : Int) (buf : List UInt8) :
    (∃ rc table', vfsWrite fd buf env = (.error rc, ⟨env.fs, table'⟩) ∧
        TableOk env.fs.nodeCount table' ∧ ∀ i k, ¬ Writes env fd buf.length i k) ∨
      ∃ i k, Writes env fd buf.length i k ∧ 0 < k ∧ k < env.fs.nodeCount ∧
        vfsWrite fd buf env =
          (.ok buf.length,
            ⟨written env.fs k (writeOffset (env.table i) (env.fs.nodes k).size) buf,
              Function.update env.table i { env.table i with
                offset := writeOffset (env.table i) (env.fs.nodes k).size + buf.length }⟩) := by
  by_cases hreaches : ∃ i k, Reaches env fd i k
  · obtain ⟨i, k, hr⟩ := hreaches
    have hk := hr.lt h
    by_cases hfull : (env.fs.nodes k).dataCapacity <
        writeOffset (env.table i) (env.fs.nodes k).size + buf.length
    · refine Or.inl ⟨_, _, hr.vfsWrite_full hfull, h.table.update i fun _ => ⟨k, hk, hr.node⟩,
        fun i' k' hw => ?_⟩
      obtain ⟨rfl, rfl⟩ := hr.unique hw.reaches
      exact absurd hw.fits (Nat.not_le.mpr hfull)
    · have hw : Writes env fd buf.length i k :=
        ⟨hr.slot, hr.access, hr.node, hr.file, Nat.le_of_not_lt hfull⟩
      exact Or.inr ⟨i, k, hw, h.file_pos hk hr.file, hk, hw.vfsWrite_eq h hk⟩
  · have hno : ∀ i k, ¬ Reaches env fd i k := fun i k hr => hreaches ⟨i, k, hr⟩
    obtain ⟨rc, hrun⟩ := vfsWrite_of_not_reaches h buf hno
    exact Or.inl ⟨rc, env.table, hrun, h.table, fun i k hw => hno i k hw.reaches⟩

/-- In the descriptor table `mcs_vfs_write` changes an offset at most. -/
theorem vfsWrite_table (h : EnvOk env) (fd : Int) (buf : List UInt8) :
    (vfsWrite fd buf env).2.table = env.table ∨
      ∃ i offset, (vfsWrite fd buf env).2.table =
        Function.update env.table i { env.table i with offset := offset } := by
  by_cases hreaches : ∃ i k, Reaches env fd i k
  · obtain ⟨i, k, hr⟩ := hreaches
    rcases Nat.lt_or_ge (env.fs.nodes k).dataCapacity
        (writeOffset (env.table i) (env.fs.nodes k).size + buf.length) with hfull | hfits
    · exact Or.inr ⟨i, _, by rw [hr.vfsWrite_full hfull]⟩
    · have hw : Writes env fd buf.length i k := ⟨hr.slot, hr.access, hr.node, hr.file, hfits⟩
      exact Or.inr ⟨i, _, by rw [hw.vfsWrite_eq h (hr.lt h)]⟩
  · obtain ⟨rc, hrun⟩ := vfsWrite_of_not_reaches h buf fun i k hr => hreaches ⟨i, k, hr⟩
    exact Or.inl (by rw [hrun])

/-! ## The other calls on descriptors -/

/-- A call of `mcs_vfs_lseek` that moves the offset of slot `i`, counting from `base`. -/
structure Seeks (env : Env) (fd offset whence : Int) (i : Fin maxOpenFiles) (k : ℕ) (base : Int) :
    Prop where
  slot : fdGet env.table fd = some i
  node : (env.table i).node = some k
  file : (env.fs.nodes k).type ≠ .dir
  start : seekBase (env.table i) (env.fs.nodes k) whence = some base
  nonneg : 0 ≤ toLong (base + offset)

theorem Seeks.unique {offset whence base base' : Int} {i' : Fin maxOpenFiles} {k' : ℕ}
    (h : Seeks env fd offset whence i k base) (h' : Seeks env fd offset whence i' k' base') :
    i' = i ∧ k' = k ∧ base' = base := by
  obtain rfl := Option.some.inj (h.slot.symm.trans h'.slot)
  obtain rfl := Option.some.inj (h.node.symm.trans h'.node)
  exact ⟨rfl, rfl, Option.some.inj (h'.start.symm.trans h.start)⟩

theorem vfsLseek_cases (h : EnvOk env) (fd offset whence : Int) :
    (∃ rc, vfsLseek fd offset whence env = (.error rc, env) ∧
        ∀ i k base, ¬ Seeks env fd offset whence i k base) ∨
      ∃ i k base, Seeks env fd offset whence i k base ∧ k < env.fs.nodeCount ∧
        vfsLseek fd offset whence env =
          (.ok (toInt (toLong (base + offset))), ⟨env.fs, Function.update env.table i
            { env.table i with offset := (toLong (base + offset)).toNat }⟩) := by
  unfold vfsLseek
  rw [get_bind_apply]
  cases hi : fdGet env.table fd with
  | none => exact Or.inl ⟨.ebadf, rfl, fun i k base hs => by
      rw [hs.slot] at hi
      cases hi⟩
  | some i =>
      obtain ⟨k, hk, hnode⟩ := h.node hi
      have honly : ∀ i' k' base, Seeks env fd offset whence i' k' base → i' = i ∧ k' = k := by
        intro i' k' base hs
        obtain rfl := Option.some.inj (hs.slot.symm.trans hi)
        exact ⟨rfl, Option.some.inj (hs.node.symm.trans hnode)⟩
      rw [orFail_some_bind, hnode, orFail_some_bind]
      by_cases hdir : (env.fs.nodes k).type = .dir
      · refine Or.inl ⟨.eisdir, failIf_bind_of_pos hdir _ env, fun i' k' base hs => ?_⟩
        obtain ⟨rfl, rfl⟩ := honly i' k' base hs
        exact hs.file hdir
      rw [failIf_bind_of_not hdir]
      cases hbase : seekBase (env.table i) (env.fs.nodes k) whence with
      | none =>
          refine Or.inl ⟨.einval, rfl, fun i' k' base hs => ?_⟩
          obtain ⟨rfl, rfl⟩ := honly i' k' base hs
          rw [hs.start] at hbase
          cases hbase
      | some base =>
          rw [orFail_some_bind]
          by_cases hneg : toLong (base + offset) < 0
          · refine Or.inl ⟨.einval, failIf_bind_of_pos hneg _ env, fun i' k' base' hs => ?_⟩
            obtain ⟨rfl, rfl⟩ := honly i' k' base' hs
            obtain rfl := Option.some.inj (hs.start.symm.trans hbase)
            exact absurd hs.nonneg (Int.not_le.mpr hneg)
          · rw [failIf_bind_of_not hneg]
            exact Or.inr ⟨i, k, base, ⟨hi, hnode, hdir, hbase, Int.not_lt.mp hneg⟩, hk, rfl⟩

theorem vfsClose_cases (env : Env) (fd : Int) :
    vfsClose fd env = (.error .ebadf, env) ∨
      ∃ i, fdGet env.table fd = some i ∧
        vfsClose fd env = (.ok (), ⟨env.fs, Function.update env.table i closedFile⟩) := by
  unfold vfsClose
  rw [get_bind_apply]
  cases hi : fdGet env.table fd with
  | none => exact Or.inl rfl
  | some i => exact Or.inr ⟨i, rfl, rfl⟩

theorem vfsDup_cases (env : Env) (fd : Int) :
    (∃ rc, vfsDup fd env = (.error rc, env)) ∨
      ∃ i j, fdGet env.table fd = some i ∧ (env.table j).used = false ∧
        vfsDup fd env = (.ok j.val, ⟨env.fs, Function.update env.table j (env.table i)⟩) := by
  obtain ⟨fs, table⟩ := env
  unfold vfsDup
  rw [get_bind_apply]
  cases hi : fdGet table fd with
  | none => exact Or.inl ⟨.ebadf, rfl⟩
  | some i =>
      rw [orFail_some_bind]
      rcases fdAlloc_cases ⟨fs, table⟩ with ⟨-, halloc⟩ | ⟨j, hfree, halloc⟩
      · exact Or.inl ⟨.enfile, bind_of_error halloc _⟩
      · refine Or.inr ⟨i, j, rfl, hfree, ?_⟩
        have hcopy : (⟨true, (table i).flags, (table i).offset, (table i).node⟩ : File) =
            table i := by
          rw [← fdGet_used hi]
        rw [bind_of_ok halloc, bind_of_ok (setFile_update ..), hcopy]
        rfl

/-! ## Calls that change no file -/

/-- The nodes are the same, and the bytes are. -/
structure SameFiles (fs fs' : Ramfs) : Prop where
  nodes : fs'.nodes = fs.nodes
  nodeCount : fs'.nodeCount = fs.nodeCount
  data : fs'.data = fs.data

namespace SameFiles

variable {fs' : Ramfs}

theorem refl (fs : Ramfs) : SameFiles fs fs := ⟨rfl, rfl, rfl⟩

theorem content_eq (h : SameFiles fs fs') (k : ℕ) : content fs' k = content fs k := by
  rw [content, h.nodes, h.data, content]

end SameFiles

theorem vfsRead_same (h : EnvOk env) (fd : Int) (len : ℕ) :
    SameFiles env.fs (vfsRead fd len env).2.fs := by
  rcases vfsRead_cases h fd len with ⟨rc, hrun⟩ | ⟨i, k, env', -, -, -, -, hrun, rfl | ⟨n, -, rfl⟩⟩
  · rw [hrun]
    exact SameFiles.refl env.fs
  · rw [hrun]
    exact SameFiles.refl env'.fs
  · rw [hrun]
    exact ⟨rfl, rfl, rfl⟩

theorem vfsLseek_same (h : EnvOk env) (fd offset whence : Int) :
    SameFiles env.fs (vfsLseek fd offset whence env).2.fs := by
  rcases vfsLseek_cases h fd offset whence with ⟨rc, hrun, -⟩ | ⟨i, k, base, -, -, hrun⟩
  · rw [hrun]
    exact SameFiles.refl env.fs
  · rw [hrun]
    exact SameFiles.refl env.fs

theorem vfsDup_same (env : Env) (fd : Int) : SameFiles env.fs (vfsDup fd env).2.fs := by
  rcases vfsDup_cases env fd with ⟨rc, hrun⟩ | ⟨i, j, -, -, hrun⟩
  · rw [hrun]
    exact SameFiles.refl env.fs
  · rw [hrun]
    exact SameFiles.refl env.fs

theorem vfsClose_same (env : Env) (fd : Int) : SameFiles env.fs (vfsClose fd env).2.fs := by
  rcases vfsClose_cases env fd with hrun | ⟨i, -, hrun⟩
  · rw [hrun]
    exact SameFiles.refl env.fs
  · rw [hrun]
    exact SameFiles.refl env.fs

end Mcsos.Vfs
