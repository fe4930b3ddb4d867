import Mcsos.Elf.PlanLoad
import Mcsos.Klib.Memory

/-!
# System calls and user pointers

Model of `kernel/syscall/syscall.c`.  A system call is dispatched through a table to a function that
may call one of the callbacks the kernel has registered.  A callback works on a world `ω` that the
model leaves open; to speak about what a callback is called with, `Ops.logged` has every callback
write down its own call.

A pointer from user space is checked against one region.  The check looks at the last byte of the
range, where the loader's own check looks at its end; both detect a wrap-around by a comparison, in
different ways, and accept exactly the ranges that lie inside the region.
-/

namespace Mcsos.Syscall

open Klib

/-- `mcsos_syscall_status_t` -/
inductive Status where
  | ok
  | einval
  | enosys
  | efault
  | eperm
  | ebusy
  deriving DecidableEq, Repr

def Status.code : Status → Int64
  | ok => 0
  | einval => -22
  | enosys => -38
  | efault => -14
  | eperm => -1
  | ebusy => -16

/-- `mcsos_user_region_t` -/
structure UserRegion where
  base : UInt64
  limit : UInt64
  deriving DecidableEq, Repr

/-- `mcsos_syscall_ops_t` as the caller of `mcsos_syscall_init` fills it in: every callback may be
missing. -/
structure GivenOps (ω : Type) where
  getTicks : Option (ω → UInt64 × ω)
  yieldCurrent : Option (ω → ω)
  exitCurrent : Option (Int32 → ω → ω)
  writeSerial : Option (UInt64 → UInt64 → ω → Int64 × ω)

/-- `g_ops` after `mcsos_syscall_init`: there always is a `write_serial`. -/
structure Ops (ω : Type) where
  getTicks : Option (ω → UInt64 × ω)
  yieldCurrent : Option (ω → ω)
  exitCurrent : Option (Int32 → ω → ω)
  writeSerial : UInt64 → UInt64 → ω → Int64 × ω

variable {ω : Type}

def defaultWriteSerial (_buf len : UInt64) (w : ω) : Int64 × ω := (len.toInt64, w)

/-- `mcsos_syscall_init`; a null pointer leaves every callback at its default. -/
def init : Option (GivenOps ω) → Ops ω
  | none => ⟨none, none, none, defaultWriteSerial⟩
  | some ops =>
      ⟨ops.getTicks, ops.yieldCurrent, ops.exitCurrent, ops.writeSerial.getD defaultWriteSerial⟩

/-- `mcsos_user_check_range` -/
def userCheckRange (region : UserRegion) (addr len : UInt64) : Bool :=
  if len = 0 then true
  else if region.base = 0 ∨ region.limit ≤ region.base then false
  else if addr < region.base then false
  else if region.limit < addr then false
  else
    let last := addr + len - 1
    if last < addr then false
    else if region.limit ≤ last then false
    else true

/-- `for (size_t i = 0; i < len; ++i) { d[i] = s[i]; }` from the `i`th byte on, with the addresses
it reads. -/
def copyLoop (mem : Flat) (d s : UInt64) (i : ℕ) : (rest : ℕ) → Flat × List UInt64
  | 0 => (mem, [])
  | rest + 1 =>
    let src := s + UInt64.ofNat i
    let (mem', reads) :=
      copyLoop (Function.update mem (d + UInt64.ofNat i) (mem src)) d s (i + 1) rest
    (mem', src :: reads)

/-- `mcsos_copy_from_user`, with the addresses it reads from in order. -/
def copyFromUser (region : UserRegion) (mem : Flat) (dst src len : UInt64) :
    Status × Flat × List UInt64 :=
  if len = 0 then (.ok, mem, [])
  else if dst = 0 ∨ src = 0 then (.einval, mem, [])
  else if userCheckRange region src len = false then (.efault, mem, [])
  else (.ok, copyLoop mem dst src 0 len.toNat)

/-! ### The system calls -/

/-- `syscall_fn_t`, with the two globals it reads and the world its callbacks work on. -/
abbrev SyscallFn (ω : Type) : Type :=
  Ops ω → UserRegion → UInt64 → UInt64 → UInt64 → UInt64 → UInt64 → UInt64 → ω → Int64 × ω

def sysPing : SyscallFn ω := fun _ _ _ _ _ _ _ _ w => (0x2605020A, w)

def sysGetTicks : SyscallFn ω := fun ops _ _ _ _ _ _ _ w =>
  match ops.getTicks with
  | none => (Status.ebusy.code, w)
  | some getTicks =>
    let (ticks, w') := getTicks w
    (ticks.toInt64, w')

def sysWriteSerial : SyscallFn ω := fun ops region ptr len _ _ _ _ w =>
  if ptr = 0 then (Status.einval.code, w)
  else if 4096 < len then (Status.einval.code, w)
  else if userCheckRange region ptr len = false then (Status.efault.code, w)
  else ops.writeSerial ptr len w

def sysYield : SyscallFn ω := fun ops _ _ _ _ _ _ _ w =>
  match ops.yieldCurrent with
  | none => (Status.ebusy.code, w)
  | some yieldCurrent => (Status.ok.code, yieldCurrent w)

/-- The exit code is cast to an `int`. -/
def sysExitThread : SyscallFn ω := fun ops _ code _ _ _ _ _ w =>
  match ops.exitCurrent with
  | none => (Status.ebusy.code, w)
  | some exitCurrent => (Status.ok.code, exitCurrent code.toUInt32.toInt32 w)

/-- `MCSOS_SYS_MAX` -/
def sysMax : UInt64 := 5

/-- `g_table`; an entry of a table in C may be null. -/
def table : List (Option (SyscallFn ω)) :=
  [some sysPing, some sysGetTicks, some sysWriteSerial, some sysYield, some sysExitThread]

/-- `mcsos_syscall_dispatch` -/
def dispatch (ops : Ops ω) (region : UserRegion)
    (nr arg0 arg1 arg2 arg3 arg4 arg5 : UInt64) (w : ω) :
    Int64 × ω :=
  if sysMax ≤ nr then (Status.enosys.code, w)
  else
    match table[nr.toNat]? with
    | some (some fn) => fn ops region arg0 arg1 arg2 arg3 arg4 arg5 w
    | _ => (Status.enosys.code, w)

/-! ### The calls of the callbacks -/

/-- A call of one of the callbacks. -/
inductive HostCall where
  | getTicks
  | yieldCurrent
  | exitCurrent (code : Int32)
  | writeSerial (buf len : UInt64)
  deriving DecidableEq

/-- The callbacks `ops`, each of which also writes down that it was called. -/
def Ops.logged (ops : Ops ω) : Ops (ω × List HostCall) where
  getTicks :=
    ops.getTicks.map fun getTicks w => ((getTicks w.1).1, (getTicks w.1).2, w.2 ++ [.getTicks])
  yieldCurrent := ops.yieldCurrent.map fun yieldCurrent w =>
    (yieldCurrent w.1, w.2 ++ [.yieldCurrent])
  exitCurrent := ops.exitCurrent.map fun exitCurrent code w =>
    (exitCurrent code w.1, w.2 ++ [.exitCurrent code])
  writeSerial := fun buf len w =>
    ((ops.writeSerial buf len w.1).1, (ops.writeSerial buf len w.1).2, w.2 ++
      [.writeSerial buf len])

/-! ### The range check -/

/-- The bytes `[addr, addr + len)` lie inside the region, over unbounded integers. -/
def Inside (region : UserRegion) (addr len : UInt64) : Prop :=
  region.base.toNat ≤ addr.toNat ∧ addr.toNat + len.toNat ≤ region.limit.toNat

variable {region : UserRegion} {addr len : UInt64}

theorem toNat_pos (hlen : len ≠ 0) : 0 < len.toNat :=
  Nat.pos_of_ne_zero fun h => hlen (UInt64.toNat_inj.mp h)

/-- The last byte of a range that is not empty, as the check computes it. -/
theorem toNat_last (addr : UInt64) (hlen : len ≠ 0) :
    (addr + len - 1).toNat = (addr.toNat + (len.toNat - 1)) % 2 ^ 64 := by
  have hpos : 0 < len.toNat := toNat_pos hlen
  have hassoc : addr + len - 1 = addr + (len - 1) := by grind
  have hpred : (len - 1).toNat = len.toNat - 1 := UInt64.toNat_sub_of_le len 1 hpos
  rw [hassoc, UInt64.toNat_add, hpred]

/-- The last byte lies before the first one exactly when the range passes the end of the address
space. -/
theorem last_lt_iff (addr : UInt64) (hlen : len ≠ 0) :
    addr + len - 1 < addr ↔ 2 ^ 64 < addr.toNat + len.toNat := by
  have hpos : 0 < len.toNat := toNat_pos hlen
  have haddr := addr.toNat_lt
  have hlenlt := len.toNat_lt
  rw [UInt64.lt_iff_toNat_lt, toNat_last addr hlen]
  by_cases hwrap : addr.toNat + (len.toNat - 1) < 2 ^ 64
  · rw [Nat.mod_eq_of_lt hwrap]
    omega
  · rw [Nat.mod_eq_sub_mod (Nat.le_of_not_lt hwrap), Nat.mod_eq_of_lt (by omega)]
    omega

/-- What the check accepts: every empty range, and the ranges inside a region that does not start at
zero. -/
theorem userCheckRange_iff :
    userCheckRange region addr len = true ↔ len = 0 ∨
      (region.base ≠ 0 ∧ Inside region addr len) := by
  unfold userCheckRange
  by_cases hlen : len = 0
  · rw [if_pos hlen]
    exact ⟨fun _ => Or.inl hlen, fun _ => rfl⟩
  have hpos : 0 < len.toNat := toNat_pos hlen
  have hwrap := last_lt_iff addr hlen
  have hlast := toNat_last addr hlen
  have hlimit := region.limit.toNat_lt
  rw [if_neg hlen]
  by_cases hbase : region.base = 0
  · rw [if_pos (Or.inl hbase)]
    exact ⟨fun h => (Bool.false_ne_true h).elim, fun h => (h.elim hlen fun h => h.1 hbase).elim⟩
  simp only [hbase, hlen, false_or, ne_eq, not_false_eq_true, true_and, Inside, hwrap,
    UInt64.lt_iff_toNat_lt, UInt64.le_iff_toNat_le, hlast]
  by_cases hfits : addr.toNat + (len.toNat - 1) < 2 ^ 64
  · rw [Nat.mod_eq_of_lt hfits]
    split_ifs <;> simp <;> omega
  · rw [if_pos (show 2 ^ 64 < addr.toNat + len.toNat by omega)]
    split_ifs <;> simp <;> omega

/-- The loader accepts the same ranges of the region, apart from the empty ones. -/
theorem validateUserRange_iff (hlen : len ≠ 0) :
    Elf.validateUserRange ⟨region.base, region.limit⟩ addr.toNat len.toNat = .ok () ↔
      Inside region addr len := by
  rw [Elf.validateUserRange_eq_ok addr.toNat_lt len.toNat_lt]
  exact ⟨fun h => h.2, fun h => ⟨toNat_pos hlen, h⟩⟩

/-! ### What is passed on -/

/-- A buffer that is written out has passed the check and is no longer than a page; nothing is asked
of the other callbacks. -/
def Permitted (region : UserRegion) : HostCall → Prop
  | .writeSerial buf len => userCheckRange region buf len = true ∧ len ≤ 4096
  | .getTicks => True
  | .yieldCurrent => True
  | .exitCurrent _ => True

/-- Every call that the system call makes is permitted, whatever its arguments are. -/
def MakesPermitted (fn : SyscallFn (ω × List HostCall)) (ops : Ops ω) (region : UserRegion) :
    Prop :=
  ∀ (a0 a1 a2 a3 a4 a5 : UInt64) (w : ω) (log : List HostCall),
    ∀ call ∈ (fn ops.logged region a0 a1 a2 a3 a4 a5 (w, log)).2.2, call ∈ log ∨
    Permitted region call

variable {ops : Ops ω}

theorem sysPing_permitted : MakesPermitted sysPing ops region :=
  fun _ _ _ _ _ _ _ _ _ hcall => Or.inl hcall

/-- A call at the end of a log is the only one that is new. -/
theorem mem_log_append {call new : HostCall} {log : List HostCall} (h : call ∈ log ++ [new])
    (hnew : Permitted region new) : call ∈ log ∨ Permitted region call := by
  rcases List.mem_append.mp h with hold | hlast
  · exact Or.inl hold
  · rw [List.mem_singleton.mp hlast]
    exact Or.inr hnew

theorem sysGetTicks_permitted : MakesPermitted sysGetTicks ops region := by
  intro a0 a1 a2 a3 a4 a5 w log call hcall
  cases hticks : ops.getTicks with
  | none =>
      simp only [sysGetTicks, Ops.logged, hticks, Option.map_none] at hcall
      exact Or.inl hcall
  | some getTicks =>
      simp only [sysGetTicks, Ops.logged, hticks, Option.map_some] at hcall
      exact mem_log_append hcall trivial

theorem sysWriteSerial_permitted : MakesPermitted sysWriteSerial ops region := by
  intro ptr len a2 a3 a4 a5 w log call hcall
  unfold sysWriteSerial at hcall
  by_cases hptr : ptr = 0
  · rw [if_pos hptr] at hcall
    exact Or.inl hcall
  by_cases hlong : 4096 < len
  · rw [if_neg hptr, if_pos hlong] at hcall
    exact Or.inl hcall
  by_cases hcheck : userCheckRange region ptr len = false
  · rw [if_neg hptr, if_neg hlong, if_pos hcheck] at hcall
    exact Or.inl hcall
  · rw [if_neg hptr, if_neg hlong, if_neg hcheck] at hcall
    exact mem_log_append hcall ⟨Bool.not_eq_false _ ▸ hcheck, UInt64.not_lt.mp hlong⟩

theorem sysYield_permitted : MakesPermitted sysYield ops region := by
  intro a0 a1 a2 a3 a4 a5 w log call hcall
  cases hyield : ops.yieldCurrent with
  | none =>
      simp only [sysYield, Ops.logged, hyield, Option.map_none] at hcall
      exact Or.inl hcall
  | some yieldCurrent =>
      simp only [sysYield, Ops.logged, hyield, Option.map_some] at hcall
      exact mem_log_append hcall trivial

theorem sysExitThread_permitted : MakesPermitted sysExitThread ops region := by
  intro code a1 a2 a3 a4 a5 w log call hcall
  cases hexit : ops.exitCurrent with
  | none =>
      simp only [sysExitThread, Ops.logged, hexit, Option.map_none] at hcall
      exact Or.inl hcall
  | some exitCurrent =>
      simp only [sysExitThread, Ops.logged, hexit, Option.map_some] at hcall
      exact mem_log_append hcall trivial

/-- So does every entry of the table. -/
theorem table_permitted : ∀ entry ∈ (table : List (Option (SyscallFn (ω × List HostCall)))), ∀ fn,
    entry = some fn → MakesPermitted fn ops region := by
  intro entry hentry fn hfn
  subst hfn
  simp only [table, List.mem_cons, Option.some.injEq, List.not_mem_nil, or_false] at hentry
  rcases hentry with rfl | rfl | rfl | rfl | rfl
  · exact sysPing_permitted
  · exact sysGetTicks_permitted
  · exact sysWriteSerial_permitted
  · exact sysYield_permitted
  · exact sysExitThread_permitted

theorem dispatch_permitted (nr : UInt64) :
    MakesPermitted (fun ops region => dispatch ops region nr) ops region := by
  intro a0 a1 a2 a3 a4 a5 w log call hcall
  change call ∈ (dispatch ops.logged region nr a0 a1 a2 a3 a4 a5 (w, log)).2.2 at hcall
  unfold dispatch at hcall
  by_cases hnr : sysMax ≤ nr
  · rw [if_pos hnr] at hcall
    exact Or.inl hcall
  rw [if_neg hnr] at hcall
  cases hentry : (table : List (Option (SyscallFn (ω × List HostCall))))[nr.toNat]? with
  | none =>
      simp only [hentry] at hcall
      exact Or.inl hcall
  | some entry =>
      cases entry with
      | none =>
          simp only [hentry] at hcall
          exact Or.inl hcall
      | some fn =>
          simp only [hentry] at hcall
          exact table_permitted _ (List.mem_of_getElem? hentry) fn rfl a0 a1 a2 a3 a4 a5 w
            log call hcall

/-- The loop reads the source bytes from the `i`th one on. -/
theorem mem_copyLoop_reads {mem : Flat} {d s a : UInt64} {i rest : ℕ}
    (h : a ∈ (copyLoop mem d s i rest).2) : ∃ j, i ≤ j ∧ j < i + rest ∧ a = s + UInt64.ofNat j := by
  induction rest generalizing mem i with
  | zero => exact absurd h List.not_mem_nil
  | succ rest ih =>
      rcases List.mem_cons.mp h with hfirst | hrest
      · exact ⟨i, Nat.le_refl i, by omega, hfirst⟩
      · obtain ⟨j, hij, hj, ha⟩ := ih hrest
        exact ⟨j, by omega, by omega, ha⟩

/-- `mcsos_copy_from_user` reads bytes of the region only. -/
theorem copyFromUser_reads {mem : Flat} {dst src a : UInt64}
    (h : a ∈ (copyFromUser region mem dst src len).2.2) :
    (src.toNat ≤ a.toNat ∧ a.toNat < src.toNat + len.toNat) ∧ Inside region src len := by
  unfold copyFromUser at h
  by_cases hlen : len = 0
  · rw [if_pos hlen] at h
    exact absurd h List.not_mem_nil
  by_cases hnull : dst = 0 ∨ src = 0
  · rw [if_neg hlen, if_pos hnull] at h
    exact absurd h List.not_mem_nil
  by_cases hcheck : userCheckRange region src len = false
  · rw [if_neg hlen, if_neg hnull, if_pos hcheck] at h
    exact absurd h List.not_mem_nil
  rw [if_neg hlen, if_neg hnull, if_neg hcheck] at h
  have hinside : Inside region src len := by
    rcases userCheckRange_iff.mp (Bool.not_eq_false _ ▸ hcheck) with hempty | ⟨_, hinside⟩
    · exact absurd hempty hlen
    · exact hinside
  have hfits : Fits src len := by
    have hlimit := region.limit.toNat_lt
    have hend := hinside.2
    unfold Fits
    omega
  obtain ⟨j, _, hj, ha⟩ := mem_copyLoop_reads h
  have hnum : a.toNat = src.toNat + j := by rw [ha, hfits.toNat_add (by omega)]
  exact ⟨by omega, hinside⟩

/-- The check is exact, the loader's check is the same one, and with it no system call passes on a
buffer outside the region.  For a limit below the base both checks reject every range. -/
theorem user_checks_agree (region : UserRegion) (hbase : 0 < region.base) :
    (∀ addr len : UInt64, 1 ≤ len →
      (userCheckRange region addr len = true ↔
        region.base.toNat ≤ addr.toNat ∧ addr.toNat + len.toNat ≤ region.limit.toNat) ∧
      (userCheckRange region addr len = true ↔
        Elf.validateUserRange ⟨region.base, region.limit⟩ addr.toNat len.toNat = .ok ())) ∧
    (∀ (ω : Type) (given : Option (GivenOps ω)) (w : ω)
      (nr arg0 arg1 arg2 arg3 arg4 arg5 buf len : UInt64),
      .writeSerial buf len ∈
        (dispatch (init given).logged region nr arg0 arg1 arg2 arg3 arg4 arg5 (w, [])).2.2 →
        len ≠ 0 →
      (region.base.toNat ≤ buf.toNat ∧ buf.toNat + len.toNat ≤ region.limit.toNat) ∧ len ≤ 4096) ∧
    ∀ (mem : Flat) (dst src len a : UInt64), a ∈ (copyFromUser region mem dst src len).2.2 →
      (src.toNat ≤ a.toNat ∧ a.toNat < src.toNat + len.toNat) ∧
        region.base.toNat ≤ src.toNat ∧ src.toNat + len.toNat ≤ region.limit.toNat := by
  have hne : region.base ≠ 0 := (UInt64.ne_of_lt hbase).symm
  have hexact : ∀ {addr len : UInt64}, len ≠ 0 →
      (userCheckRange region addr len = true ↔ Inside region addr len) := by
    intro addr len hlen
    rw [userCheckRange_iff]
    exact ⟨fun h => (h.resolve_left hlen).2, fun h => Or.inr ⟨hne, h⟩⟩
  refine ⟨fun addr len hlen => ?_,
    fun ω given w nr arg0 arg1 arg2 arg3 arg4 arg5 buf len hcall hlen => ?_,
    fun mem dst src len a h => copyFromUser_reads h⟩
  · have hpos : len ≠ 0 := (UInt64.ne_of_lt hlen).symm
    exact ⟨hexact hpos, by rw [hexact hpos, validateUserRange_iff hpos]⟩
  · rcases dispatch_permitted nr arg0 arg1 arg2 arg3 arg4 arg5 w
      [] _ hcall with hold | ⟨hcheck, hshort⟩
    · exact absurd hold List.not_mem_nil
    · exact ⟨(hexact hlen).mp hcheck, hshort⟩

/-- In a region that ends with the address space: a range up to the limit, one that passes it, and a
system call that hands on five bytes. -/
theorem user_checks_agree_top :
    userCheckRange ⟨4096, 18446744073709551615⟩ 18446744073709551610 5 = true ∧
      ¬ userCheckRange ⟨4096, 18446744073709551615⟩ 18446744073709551610 7 = true ∧
      (8192 + 5 ≤ 18446744073709551615 ∧ (5 : UInt64) ≤ 4096) := by
  have hagree := user_checks_agree ⟨4096, 18446744073709551615⟩ (by decide)
  have hlong : ¬ userCheckRange ⟨4096, 18446744073709551615⟩ 18446744073709551610 7 = true := by
    rw [(hagree.1 18446744073709551610 7 (by decide)).1]
    decide
  refine ⟨(hagree.1 18446744073709551610 5 (by decide)).1.mpr (by decide), hlong, ?_⟩
  have hwrite := hagree.2.1 Unit none () 2 8192 5 0 0 0 0 8192 5 (by decide) (by decide)
  exact ⟨hwrite.1.2, hwrite.2⟩

end Mcsos.Syscall
