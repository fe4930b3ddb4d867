import Mcsos.Vfs.FailedCalls

/-!
# The results of seeks

`mcs_vfs_lseek` computes the new position as a `long`, stores it as a `size_t` and returns it as an
`int`.  All offsets that a descriptor can have are below `2 ^ 63` (`Bounded`), so the conversion to
`long` changes nothing.  The conversion to `int` does: from `2 ^ 31` on the result is another number
than the position, or a negative one although the offset has moved.
-/

namespace Mcsos.Vfs

open Act

variable {ι : Type} [DecidableEq ι] {s : State ι} {env env' : Env}
  {table table' : FdTable} {k n : ℕ}

/-! ### The offsets of descriptors -/

/-- The offsets of the open descriptors are values of the type `long`. -/
def Bounded (table : FdTable) : Prop := ∀ i, (table i).used = true → (table i).offset < 2 ^ 63

theorem Bounded.update (h : Bounded table) (i : Fin maxOpenFiles) {file : File}
    (hfile : file.used = true → file.offset < 2 ^ 63) : Bounded (Function.update table i file) := by
  intro j hj
  rcases eq_or_ne j i with rfl | hne
  · rw [Function.update_self] at hj ⊢
    exact hfile hj
  · rw [Function.update_of_ne hne] at hj ⊢
    exact h j hj

theorem Bounded.sameOpen (h : Bounded table) (hsame : SameOpen table table') : Bounded table' := by
  intro i hi
  have hused : (table i).used = true := (hsame i).1 ▸ hi
  rw [(hsame i).2 hused]
  exact h i hused

theorem Layout.size_le {fs : Ramfs} (h : Layout fs) (hk : k < fs.nodeCount) :
    (fs.nodes k).size ≤ 256 := by
  rcases Nat.eq_zero_or_pos k with rfl | hpos
  · rw [h.root.size]
    exact Nat.zero_le 256
  · exact (h.file k hpos hk).size

/-- A new descriptor starts at the beginning of the file, or at its end. -/
theorem openFile_bounded (h : Bounded env.table) (hsize : (env.fs.nodes k).size ≤ 256)
    (flags : UInt32) {fd : ℕ} (hrun : openFile k flags env = (.ok fd, env')) :
    Bounded env'.table := by
  have hstart : (if flags &&& oAppend ≠ 0 then (env.fs.nodes k).size else 0) < 2 ^ 63 := by
    split_ifs <;> omega
  unfold openFile at hrun
  rw [get_bind_apply] at hrun
  obtain ⟨-, hrun⟩ := failIf_bind_eq_ok hrun
  rcases fdAlloc_cases env with ⟨-, halloc⟩ | ⟨i, hfree, halloc⟩
  · rw [bind_of_error halloc] at hrun
    cases hrun
  rw [bind_of_ok halloc, bind_of_ok (setFile_update ..)] at hrun
  by_cases htrunc : flags &&& oTrunc ≠ 0
  · rw [if_pos htrunc] at hrun
    by_cases haccess : canWrite flags = false
    · rw [if_pos haccess, bind_of_ok (setFile_update ..)] at hrun
      cases hrun
    · rw [if_neg haccess, bind_of_ok (onFs_of_ok (setSize_apply ..)),
        bind_of_ok (setFile_update ..)] at hrun
      obtain ⟨-, rfl⟩ := Prod.mk.inj hrun
      exact h.update i fun _ => Nat.two_pow_pos 63
  · rw [if_neg htrunc] at hrun
    obtain ⟨-, rfl⟩ := Prod.mk.inj hrun
    exact h.update i fun _ => hstart

theorem bounded_onTable {α : Type} {t : ι} {x : Act Env Err α} (h : ∀ t, Bounded (s.tables t))
    (hx : Bounded (x ⟨s.fs, s.tables t⟩).2.table) (t' : ι) :
    Bounded ((onTable t x s).tables t') := by
  show Bounded (Function.update s.tables t (x ⟨s.fs, s.tables t⟩).2.table t')
  rcases eq_or_ne t' t with rfl | hne
  · rw [Function.update_self]
    exact hx
  · rw [Function.update_of_ne hne]
    exact h t'

theorem vfsOpen_bounded (h : EnvOk env) (hbounded : Bounded env.table) (path : CStr)
    (flags : UInt32) :
    Bounded (vfsOpen path flags env).2.table := by
  rcases vfsOpen_cases h path flags with ⟨rc, -, hrun⟩ |
    ⟨k, fs', hnode, hfound, ⟨-, rc, table', hrun, hsame⟩ | ⟨-, i, offset, -, hrun, -⟩⟩
  · rw [hrun]
    exact hbounded
  · rw [hrun]
    exact hbounded.sameOpen hsame
  · have hopen : openFile k (openFlags flags) ⟨fs', env.table⟩ =
        (.ok i.val, (vfsOpen path flags env).2) := by
      have hsteps : vfsOpen path flags env = openFile k (openFlags flags) ⟨fs', env.table⟩ := by
        rw [vfsOpen, bind_of_ok (onFs_of_ok hnode)]
      rw [← hsteps, hrun]
    have hbounded' : Bounded (⟨fs', env.table⟩ : Env).table := hbounded
    exact openFile_bounded hbounded'
      ((hfound.toLocal h.layout).layout.size_le hfound.lt) (openFlags flags) hopen

theorem vfsRead_bounded (h : EnvOk env) (hbounded : Bounded env.table) (fd : Int) (len : ℕ) :
    Bounded (vfsRead fd len env).2.table := by
  rcases vfsRead_cases h fd len with ⟨rc, hrun⟩ | ⟨i, k, env', -, -, -, hk, hrun,
    rfl | ⟨n, hn, rfl⟩⟩
  · rw [hrun]
    exact hbounded
  · rw [hrun]
    exact hbounded
  · rw [hrun]
    have hsize := h.layout.size_le hk
    exact hbounded.update i fun _ => by dsimp only; omega

theorem vfsWrite_bounded (h : EnvOk env) (hbounded : Bounded env.table) (fd : Int)
    (buf : List UInt8) :
    Bounded (vfsWrite fd buf env).2.table := by
  have hstart : ∀ {i k}, Reaches env fd i k → writeOffset (env.table i) (env.fs.nodes k).size <
      2 ^ 63 := by
    intro i k hr
    have hsize := h.layout.size_le (hr.lt h)
    have hoffset := hbounded i (fdGet_used hr.slot)
    unfold writeOffset
    split_ifs <;> omega
  by_cases hreaches : ∃ i k, Reaches env fd i k
  · obtain ⟨i, k, hr⟩ := hreaches
    rcases Nat.lt_or_ge (env.fs.nodes k).dataCapacity
        (writeOffset (env.table i) (env.fs.nodes k).size + buf.length) with hfull | hfits
    · rw [hr.vfsWrite_full hfull]
      exact hbounded.update i fun _ => hstart hr
    · have hw : Writes env fd buf.length i k := ⟨hr.slot, hr.access, hr.node, hr.file, hfits⟩
      have hk := hr.lt h
      rw [(h.layout.file k (h.file_pos hk hr.file) hk).dataCapacity] at hfits
      rw [hw.vfsWrite_eq h hk]
      exact hbounded.update i fun _ => by dsimp only; omega
  · obtain ⟨rc, hrun⟩ := vfsWrite_of_not_reaches h buf fun i k hr => hreaches ⟨i, k, hr⟩
    rw [hrun]
    exact hbounded

theorem toLong_lt (n : Int) : toLong n < 2 ^ 63 := by
  have hlt := Int.bmod_lt (x := n) (m := 2 ^ 64) (by decide)
  unfold toLong
  omega

theorem vfsLseek_bounded (h : EnvOk env) (hbounded : Bounded env.table) (fd offset whence : Int) :
    Bounded (vfsLseek fd offset whence env).2.table := by
  rcases vfsLseek_cases h fd offset whence with ⟨rc, hrun, -⟩ | ⟨i, k, base, hs, -, hrun⟩
  · rw [hrun]
    exact hbounded
  · rw [hrun]
    have hlt := toLong_lt (base + offset)
    exact hbounded.update i fun _ => by dsimp only; omega

/-- A call keeps the offsets of all descriptors bounded. -/
theorem exec_bounded (hinv : Inv s) (h : ∀ t, Bounded (s.tables t)) (op : Op ι) :
    ∀ t, Bounded ((exec op s).tables t) := by
  cases op with
  | create path => exact h
  | seed path data => exact h
  | «open» t path flags => exact bounded_onTable h (vfsOpen_bounded (hinv.env t) (h t) path flags)
  | read t fd len => exact bounded_onTable h (vfsRead_bounded (hinv.env t) (h t) fd len)
  | write t fd buf => exact bounded_onTable h (vfsWrite_bounded (hinv.env t) (h t) fd buf)
  | lseek t fd offset whence =>
      exact bounded_onTable h (vfsLseek_bounded (hinv.env t) (h t) fd offset whence)
  | dup t fd =>
      refine bounded_onTable h ?_
      rcases vfsDup_cases ⟨s.fs, s.tables t⟩ fd with ⟨rc, hrun⟩ | ⟨i, j, -, -, hrun⟩
      · rw [hrun]
        exact h t
      · rw [hrun]
        exact (h t).update j (h t i)
  | close t fd =>
      refine bounded_onTable h ?_
      rcases vfsClose_cases ⟨s.fs, s.tables t⟩ fd with hrun | ⟨i, -, hrun⟩
      · rw [hrun]
        exact h t
      · rw [hrun]
        exact (h t).update i fun _ => Nat.two_pow_pos 63

theorem run_bounded (hinv : Inv s) (h : ∀ t, Bounded (s.tables t)) (ops : List (Op ι)) :
    ∀ t, Bounded ((run ops s).tables t) := by
  induction ops generalizing s with
  | nil => exact h
  | cons op ops ih => exact ih (exec_local hinv op).inv (exec_bounded hinv h op)

omit [DecidableEq ι] in
theorem bounded_start (fs : Ramfs) (t : ι) : Bounded ((start fs : State ι).tables t) :=
  fun _ _ => Nat.two_pow_pos 63

/-! ### One seek -/

/-- The integer that `mcs_vfs_lseek` should count from. -/
def SeekFrom (file : File) (node : Vnode) (whence base : Int) : Prop :=
  (whence = 0 ∧ base = 0) ∨ (whence = 1 ∧ base = file.offset) ∨ (whence = 2 ∧ base = node.size)

/-- A number that fits into the type stays the same. -/
theorem toLong_eq_self {n : Int} (hlow : -2 ^ 63 ≤ n) (hhigh : n < 2 ^ 63) : toLong n = n := by
  rw [toLong, Int.bmod_eq_of_le] <;> omega

/-- The sum of a position and an offset is only negative as a `long` if it is negative, or does not
fit. -/
theorem toLong_nonneg_iff {n : Int} (hlow : -2 ^ 63 ≤ n) (hhigh : n < 2 ^ 64) :
    0 ≤ toLong n ↔ 0 ≤ n ∧ n < 2 ^ 63 := by
  rw [toLong, Int.bmod_def]
  split_ifs <;> omega

theorem toInt_of_nonneg {n : Int} (h : 0 ≤ toInt n) : toInt n = n % 2 ^ 32 := by
  rw [toInt, Int.bmod_def] at h ⊢
  split_ifs at h ⊢ <;> omega

theorem seekBase_of_seekFrom {file : File} {node : Vnode} {whence base : Int}
    (h : SeekFrom file node whence base) (hoffset : file.offset < 2 ^ 63)
    (hsize : node.size ≤ 256) :
    seekBase file node whence = some base ∧ 0 ≤ base ∧ base < 2 ^ 63 := by
  rcases h with ⟨rfl, rfl⟩ | ⟨rfl, rfl⟩ | ⟨rfl, rfl⟩
  · exact ⟨rfl, by decide, by decide⟩
  · have hlong : toLong file.offset = file.offset := toLong_eq_self (by omega) (by omega)
    exact ⟨congrArg some hlong, by omega, by omega⟩
  · have hlong : toLong node.size = node.size := toLong_eq_self (by omega) (by omega)
    exact ⟨congrArg some hlong, by omega, by omega⟩

/-- A seek to `target` with the result `r`, from the offset `before` to the offset `after`: a result
that is not negative is the position, a negative one leaves the offset, and positions that fit into
the result are reached. -/
structure Unambiguous (target r : Int) (before after : ℕ) : Prop where
  reached : 0 ≤ r → r = target ∧ (after : Int) = target
  kept : r < 0 → after = before
  succeeds : 0 ≤ target → target ≤ 2 ^ 31 - 1 → 0 ≤ r

/-- The positions for which the result says what happened. -/
def Clear (target : Int) (before : ℕ) : Prop :=
  target ≤ 2 ^ 31 - 1 ∨ 2 ^ 63 ≤ target ∨ (2 ^ 31 ≤ target % 2 ^ 32 ∧ (before : Int) = target)

/-- A seek that is refused. -/
theorem unambiguous_refused {target r : Int} (before : ℕ) (hr : r < 0)
    (htarget : target < 0 ∨ 2 ^ 63 ≤ target) :
    Unambiguous target r before before ↔ Clear target before := by
  refine iff_of_true ⟨fun h => absurd hr (Int.not_lt.mpr h), fun _ => rfl, fun hpos hsmall => ?_⟩ ?_
  · omega
  · rcases htarget with hneg | hlarge
    · exact Or.inl (by omega)
    · exact Or.inr (Or.inl hlarge)

/-- A seek that is carried out. -/
theorem unambiguous_moved {target : Int} (before : ℕ) (hpos : 0 ≤ target)
    (hlong : target < 2 ^ 63) :
    Unambiguous target (toInt target) before target.toNat ↔ Clear target before := by
  have hneg := toInt_neg_iff (n := target)
  have hafter : (target.toNat : Int) = target := Int.toNat_of_nonneg hpos
  constructor
  · intro h
    by_cases hr : 0 ≤ toInt target
    · have hsame := (h.reached hr).1
      rw [toInt_of_nonneg hr] at hsame
      have hhalf : ¬ 2 ^ 31 ≤ target % 2 ^ 32 :=
        fun hlarge => absurd (hneg.mpr hlarge) (Int.not_lt.mpr hr)
      exact Or.inl (by omega)
    · have hkept := h.kept (Int.not_le.mp hr)
      exact Or.inr (Or.inr ⟨hneg.mp (Int.not_le.mp hr), by rw [← hkept, hafter]⟩)
  · rintro (hsmall | hlarge | ⟨hhalf, hbefore⟩)
    · have hr : 0 ≤ toInt target := Int.not_lt.mp fun hr => by
        have hhalf := hneg.mp hr
        omega
      have hsame : toInt target = target := by
        rw [toInt_of_nonneg hr]
        omega
      exact ⟨fun _ => ⟨hsame, hafter⟩, fun hr' => absurd hr (Int.not_le.mpr hr'), fun _ _ => hr⟩
    · exact absurd hlong (Int.not_lt.mpr hlarge)
    · refine ⟨fun hr => absurd (hneg.mpr hhalf) (Int.not_lt.mpr hr), fun _ => by omega,
        fun _ hsmall => ?_⟩
      omega

/-- **Seeks.**  In every state of every run, for every descriptor of a file: the result of a seek is
unambiguous just when the position is below `2 ^ 31`, or does not fit into a `long`, or is the
offset that the descriptor has already and gives a negative result. -/
theorem lseek_unambiguous_iff (fs₀ : Ramfs) (ops : List (Op ι)) (t : ι)
    (i : Fin maxOpenFiles) (k : ℕ) (offset whence base : Int)
    (hused : ((run ops (start fs₀ : State ι)).tables t i).used = true)
    (hnode : ((run ops (start fs₀ : State ι)).tables t i).node = some k)
    (hfile : ((run ops (start fs₀ : State ι)).fs.nodes k).type = .file)
    (hlong : -2 ^ 63 ≤ offset ∧ offset < 2 ^ 63)
    (hbase : SeekFrom ((run ops (start fs₀ : State ι)).tables t i)
      ((run ops (start fs₀ : State ι)).fs.nodes k) whence base) :
    Unambiguous (base + offset)
      (returned (.lseek t i offset whence) (run ops (start fs₀ : State ι)))
        ((run ops (start fs₀ : State ι)).tables t i).offset
        ((exec (.lseek t i offset whence) (run ops (start fs₀ : State ι))).tables t i).offset ↔
      Clear (base + offset) ((run ops (start fs₀ : State ι)).tables t i).offset := by
  have hinv : Inv (run ops (start fs₀ : State ι)) := inv_run ops (inv_start fs₀)
  have hbounded :=
    run_bounded (inv_start fs₀)
    (bounded_start fs₀ : ∀ t, Bounded ((start fs₀ : State ι).tables t)) ops t
  generalize run ops (start fs₀ : State ι) = s at *
  have hslot : fdGet (s.tables t) i = some i := fdGet_eq_some_iff.mpr ⟨rfl, hused⟩
  have hk : k < s.fs.nodeCount := by
    obtain ⟨k', hk', hnode'⟩ := (hinv.env t).node hslot
    rwa [← Option.some.inj (hnode.symm.trans hnode')] at hk'
  obtain ⟨hstart, hlow, hhigh⟩ :=
    seekBase_of_seekFrom hbase (hbounded i hused) (hinv.layout.size_le hk)
  have hfits := toLong_nonneg_iff (n := base + offset) (by omega) (by omega)
  rcases vfsLseek_cases (hinv.env t) i offset whence with ⟨rc, hrun, hno⟩ | ⟨i', k', base',
    hs, -, hrun⟩
  · -- the position is negative or does not fit
    have hdir : (s.fs.nodes k).type ≠ .dir := by
      rw [hfile]
      decide
    have hrefused : ¬ 0 ≤ toLong (base + offset) :=
      fun hpos => hno i k base ⟨hslot, hnode, hdir, hstart, hpos⟩
    have hresult : returned (.lseek t i offset whence) s < 0 := by
      rw [returned, hrun]
      exact status_error_neg id rc
    have hkept : (exec (.lseek t i offset whence) s).tables t i = s.tables t i := by
      rw [exec, Vfs.onTable, hrun]
      exact congrFun (Function.update_self ..) i
    rw [hkept]
    exact unambiguous_refused _ hresult (by omega)
  · obtain rfl : i' = i := Option.some.inj (hs.slot.symm.trans hslot)
    obtain rfl : k' = k := Option.some.inj (hs.node.symm.trans hnode)
    obtain rfl : base' = base := Option.some.inj (hs.start.symm.trans hstart)
    obtain ⟨hpos, hlt⟩ := hfits.mp hs.nonneg
    have hsame : toLong (base' + offset) = base' + offset := toLong_eq_self (by omega) hlt
    rw [hsame] at hrun
    have hresult : returned (.lseek t i' offset whence) s = toInt (base' + offset) := by
      rw [returned, hrun]
      rfl
    have hmoved : ((exec (.lseek t i' offset whence) s).tables t i').offset =
        (base' + offset).toNat := by
      rw [exec, Vfs.onTable, hrun]
      dsimp only
      rw [Function.update_self, Function.update_self]
    rw [hresult, hmoved]
    exact unambiguous_moved _ hpos hlt

/-- A new file is opened. -/
def seekOps : List (Op Unit) := [.open () pathF (oCreat ||| oRdwr)]

/-- Its descriptor. -/
def firstSlot : Fin maxOpenFiles := ⟨0, Nat.succ_pos 15⟩

/-- It can be moved behind the end of the file, to position 5. -/
theorem lseek_unambiguous_iff_small :
    Unambiguous (0 + 5) (returned (.lseek () firstSlot.val 5 0) (run seekOps (start blankRamfs)))
      ((run seekOps (start blankRamfs)).tables () firstSlot).offset
      ((exec (.lseek () firstSlot.val 5 0) (run seekOps (start blankRamfs))).tables
        () firstSlot).offset :=
  (lseek_unambiguous_iff blankRamfs seekOps () firstSlot 1 5 0 0 (by decide) (by decide)
    (by decide) (by decide) (Or.inl ⟨rfl, rfl⟩)).mpr (Or.inl (by decide))

/-- A seek to `2 ^ 32` returns zero, and the descriptor is at `2 ^ 32`. -/
theorem lseek_returns_other_position :
    returned (.lseek () 0 4294967296 0) (run seekOps (start blankRamfs)) = 0 ∧
      ((exec (.lseek () 0 4294967296 0) (run seekOps (start blankRamfs))).tables
        () firstSlot).offset = 4294967296 ∧
      ¬ Unambiguous 4294967296
        (returned (.lseek () 0 4294967296 0) (run seekOps (start blankRamfs))) 0
        ((exec (.lseek () 0 4294967296 0) (run seekOps (start blankRamfs))).tables
          () firstSlot).offset := by
  have hresult : returned (.lseek () 0 4294967296 0) (run seekOps (start blankRamfs)) =
      0 := by decide
  refine ⟨hresult, by decide, fun h => ?_⟩
  have hreached := (h.reached (Int.le_of_eq hresult.symm)).1
  rw [hresult] at hreached
  cases hreached

end Mcsos.Vfs
