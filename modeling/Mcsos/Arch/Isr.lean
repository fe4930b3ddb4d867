import Mathlib.Tactic.Ring
import Mcsos.Arch.Idt
import Mcsos.Lib.SysV

/-!
# Interrupt stubs

Model of `kernel/arch/x86_64/isr.S`.  Every vector has a stub of its own, which makes the stack look
alike for exceptions with and without an error code; the code behind it saves the registers, calls
`x86_64_trap_dispatch` with a pointer to what is on the stack, and restores them.

The C function is a parameter: it is only asked to keep the calling convention and to leave the
frame alone.  The convention promises nothing of a function that is entered with the direction flag
set, and the stubs do not clear it: the function is entered with the flag as it was at the interrupt
(`dispatch_frame`).  Where the flag is clear, an interrupt is transparent, whatever is interrupted
meanwhile: the registers, the flags and the stack are as before (`interrupts_transparent`).
-/

namespace Mcsos.Arch

open X64 Stack Relation

/-- The C functions that assembly code calls. -/
inductive CFun where
  | trapDispatch
  | syscallDispatchFrame
  deriving DecidableEq, Repr

/-- The vectors whose stub is an `ISR_ERR`. -/
def isrErrVectors : List ℕ := [8, 10, 11, 12, 13, 14, 17, 21, 29, 30]

/-- `isr_stub_\vector`: `ISR_ERR` relies on the error code that the processor pushes, `ISR_NOERR`
pushes a zero. -/
def isrStub (common : UInt64) (v : ℕ) : List Instr :=
  if v ∈ isrErrVectors then [.pushImm (UInt64.ofNat v), .jmp common]
  else [.pushImm 0, .pushImm (UInt64.ofNat v), .jmp common]

/-- The registers that `isr_common` pushes. -/
def savedRegs : List Reg :=
  [.rax, .rbx, .rcx, .rdx, .rbp, .rdi, .rsi, .r8, .r9, .r10, .r11, .r12, .r13, .r14, .r15]

/-- The registers that `isr_common` pops. -/
def restoredRegs : List Reg :=
  [.r15, .r14, .r13, .r12, .r11, .r10, .r9, .r8, .rsi, .rdi, .rbp, .rdx, .rcx, .rbx, .rax]

/-- `isr_common` -/
def isrCommon (dispatch : UInt64) : List Instr :=
  savedRegs.map .push ++
    ([.mov .rsp .rdi, .call dispatch] ++ (restoredRegs.map .pop ++ [.add 16 .rsp, .iretq]))

/-- `x86_64_trap_frame_t` -/
structure TrapFrame where
  r15 : UInt64
  r14 : UInt64
  r13 : UInt64
  r12 : UInt64
  r11 : UInt64
  r10 : UInt64
  r9 : UInt64
  r8 : UInt64
  rsi : UInt64
  rdi : UInt64
  rbp : UInt64
  rdx : UInt64
  rcx : UInt64
  rbx : UInt64
  rax : UInt64
  vector : UInt64
  errorCode : UInt64
  rip : UInt64
  cs : UInt64
  rflags : UInt64
  deriving DecidableEq, Repr

/-- The frame at `p`, through a pointer to the packed struct. -/
def TrapFrame.read (mem : Ram) (p : UInt64) : TrapFrame where
  r15 := mem.load (p + 0)
  r14 := mem.load (p + 8)
  r13 := mem.load (p + 16)
  r12 := mem.load (p + 24)
  r11 := mem.load (p + 32)
  r10 := mem.load (p + 40)
  r9 := mem.load (p + 48)
  r8 := mem.load (p + 56)
  rsi := mem.load (p + 64)
  rdi := mem.load (p + 72)
  rbp := mem.load (p + 80)
  rdx := mem.load (p + 88)
  rcx := mem.load (p + 96)
  rbx := mem.load (p + 104)
  rax := mem.load (p + 112)
  vector := mem.load (p + 120)
  errorCode := mem.load (p + 128)
  rip := mem.load (p + 136)
  cs := mem.load (p + 144)
  rflags := mem.load (p + 152)

/-- The frame of an interrupt: the registers where it came, its vector, and its error code if it has
one. -/
def TrapFrame.of (s : Cpu) (v : ℕ) (err : Option UInt64) : TrapFrame where
  r15 := s.reg .r15
  r14 := s.reg .r14
  r13 := s.reg .r13
  r12 := s.reg .r12
  r11 := s.reg .r11
  r10 := s.reg .r10
  r9 := s.reg .r9
  r8 := s.reg .r8
  rsi := s.reg .rsi
  rdi := s.reg .rdi
  rbp := s.reg .rbp
  rdx := s.reg .rdx
  rcx := s.reg .rcx
  rbx := s.reg .rbx
  rax := s.reg .rax
  vector := UInt64.ofNat v
  errorCode := err.getD 0
  rip := s.rip
  cs := s.cs.toUInt64
  rflags := s.rflags

/-- The stubs, the code behind them and the function they call are in memory. -/
structure IsrLoaded (img : Image CFun) (stubs : ℕ → UInt64) (common dispatch : UInt64) : Prop where
  stub : ∀ v < 48, ∃ b, img.At (stubs v) b (isrStub common v)
  common : ∃ b, img.At common b (isrCommon dispatch)
  dispatch : img dispatch = some (.cfun .trapDispatch)

variable {img : Image CFun} {cfuns : Behaviour CFun} {irq : Cpu → Cpu → Prop} {G : UInt64 → Prop}
  {stubs : ℕ → UInt64} {common dispatch base : UInt64} {size room v : ℕ} {err : Option UInt64}
  {s t d : Cpu} {a : Abs}

/-! ### The words on the stack -/

/-- The words behind the pointer that is given to `x86_64_trap_dispatch`. -/
def trapWords (s : Cpu) (v : ℕ) (err : Option UInt64) : List UInt64 :=
  restoredRegs.map s.reg ++ ([UInt64.ofNat v, err.getD 0] ++ pushed s none)

/-- The bytes of these words. -/
def trapFrameBytes : ℕ := 176

theorem length_trapWords (s : Cpu) (v : ℕ) (err : Option UInt64) :
    (trapWords s v err).length = 22 := rfl

/-- A stub leaves the vector and an error code on the stack. -/
theorem leads_stub (hloaded : IsrLoaded img stubs common dispatch) (hv : v < 48)
    (herr : SuppliesError v err) {Q : Abs → Prop} (hroom : 8 * 7 + room ≤ size)
    (hrest : Leads img base size room Q
      { entry (stubGate stubs v) err s with
        stack := UInt64.ofNat v :: err.getD 0 :: pushed s none, rip := common }) :
    Leads img base size room Q (entry (stubGate stubs v) err s) := by
  obtain ⟨b, hcode⟩ := hloaded.stub v hv
  have hlen := length_pushed_le s err
  rw [isrStub] at hcode
  by_cases hmem : v ∈ isrErrVectors
  · rw [if_pos hmem] at hcode
    -- `ISR_ERR`: the error code is there already
    obtain ⟨code, rfl⟩ := Option.isSome_iff_exists.mp (herr.mpr hmem)
    obtain ⟨n₁, hpush, n₂, hjmp, -⟩ := hcode
    refine .instr (by simp only [entry]; omega) hpush rfl ?_
    exact .instr (by simp only [Abs.push, entry, List.length_cons]; omega) hjmp rfl hrest
  · rw [if_neg hmem] at hcode
    have hnone : err = none := by
      rw [← Option.not_isSome_iff_eq_none]
      exact fun h => hmem (herr.mp h)
    subst hnone
    have hlen5 : (pushed s none).length = 5 := rfl
    obtain ⟨n₁, hzero, n₂, hpush, n₃, hjmp, -⟩ := hcode
    refine .instr (by simp only [entry]; omega) hzero rfl ?_
    refine .instr (by simp only [Abs.push, entry, List.length_cons]; omega) hpush rfl ?_
    exact .instr (by simp only [Abs.push, entry, List.length_cons]; omega) hjmp rfl hrest

/-- The end of `isr_common`, behind the call. -/
def isrReturn : List Instr := restoredRegs.map .pop ++ [.add 16 .rsp, .iretq]

/-- In front of the call the pointer to the frame is in `rdi`, and the frame above the return
address. -/
structure AtTrapCall (img : Image CFun) (s : Cpu) (v : ℕ) (err : Option UInt64) (base : UInt64)
    (a : Abs) : Prop where
  code : img a.rip = some (.cfun .trapDispatch)
  rdi : a.reg .rdi = ptr base 22
  direction : a.rflags &&& directionFlag = s.rflags &&& directionFlag
  stack : ∃ ret b, a.stack = ret :: trapWords s v err ∧ img.At ret b isrReturn

/-- `isr_common` gets to its call. -/
theorem leads_common (hloaded : IsrLoaded img stubs common dispatch) (hrip : a.rip = common)
    (hreg : a.reg = s.reg) (hflags : a.rflags &&& directionFlag = s.rflags &&& directionFlag)
    (hstack : a.stack = UInt64.ofNat v :: err.getD 0 :: pushed s none)
    (hroom : 8 * 23 + room ≤ size) :
    Leads img base size room (AtTrapCall img s v err base) a := by
  obtain ⟨b, hcode⟩ := hloaded.common
  obtain ⟨b₁, hpushes, hcode⟩ := hcode.append
  obtain ⟨b₂, hcalls, hcode⟩ := hcode.append
  obtain ⟨m₁, hmov, m₂, hcall, rfl⟩ := hcalls
  have hlen : a.stack.length = 7 := by rw [hstack]; rfl
  have hsaved : (savedRegs.map a.reg).reverse ++ a.stack = trapWords s v err := by
    rw [← List.map_reverse, hreg, hstack]
    rfl
  have hpushed : 8 * (a.stack.length + savedRegs.length) + room ≤ size := by
    simp only [hlen, savedRegs, List.length_cons, List.length_nil]
    omega
  refine .pushes (by decide : ∀ r ∈ savedRegs, r ≠ .rsp) (hrip ▸ hpushes) hpushed ?_
  rw [hsaved]
  refine .instr (by simp only [length_trapWords]; omega) hmov rfl ?_
  refine .instr (by simp only [Abs.setReg, length_trapWords]; omega) hcall rfl ?_
  refine .done (by simp only [Abs.push, Abs.setReg, List.length_cons, length_trapWords]; omega)
    ⟨hloaded.dispatch, ?_, hflags, _, b, rfl, hcode⟩
  simp only [Abs.push, Abs.setReg, Function.update_self, Abs.read_rsp, Abs.rsp, length_trapWords]

theorem mem_restoredRegs {r : Reg} (hr : r ≠ .rsp) : r ∈ restoredRegs := by
  cases r <;> first | exact absurd rfl hr | decide

/-- Behind the call it gets back to the words that the processor pushed. -/
theorem leads_return {b : UInt64} (hcode : img.At a.rip b isrReturn)
    (hstack : a.stack = trapWords s v err) (hroom : 8 * 22 + room ≤ size) :
    Leads img base size room (Restored img s) a := by
  obtain ⟨b₁, hpops, n₁, hadd, n₂, hiret, -⟩ := hcode.append
  have hlen : a.stack.length = 22 := by rw [hstack, length_trapWords]
  refine .pops (by decide : ∀ r ∈ restoredRegs, r ≠ .rsp) hpops hstack rfl (by omega) ?_
  refine .instr (b := ⟨_, pushed s none, n₁, _, _, _⟩)
    (by change 8 * 7 + room ≤ size; omega) hadd rfl ?_
  refine .done (by change 8 * 5 + room ≤ size; omega) ⟨⟨n₂, hiret⟩, rfl, fun r hr => ?_⟩
  exact restored_map (by decide) (mem_restoredRegs hr)

/-- The whole handler. -/
theorem handler_getsTo (hloaded : IsrLoaded img stubs common dispatch) (hv : v < 48)
    (herr : SuppliesError v err) (hroom : 8 * 23 + room ≤ size) :
    GetsTo img size room (stubGate stubs v) err s .trapDispatch
      (AtTrapCall img s v err (aligned s)) :=
  ⟨leads_stub hloaded hv herr (by omega)
    (leads_common hloaded rfl rfl (Gate.flags_direction _ _) rfl hroom), fun _ h => h.code⟩

/-! ### The C function -/

/-- `x86_64_trap_dispatch` is called as the calling convention asks: with the direction flag clear,
and with the stack aligned.  The frame lies right above the return address. -/
def TrapCalled (e : Cpu) : Prop :=
  e.reg .rdi = e.reg .rsp + 8 ∧ (e.reg .rdi).toNat % 16 = 0 ∧ DirectionClear e

/-- Called like that, `x86_64_trap_dispatch` keeps the calling convention and leaves its frame
alone.  It uses `need` bytes of the stack, and those that interrupts use meanwhile; the other bytes
that it may change are in `G`. -/
def KeepsConvention (cfuns : Behaviour CFun) (G : UInt64 → Prop) (need : ℕ) : Prop :=
  ∀ (irq : Cpu → Cpu → Prop) (used : ℕ), Quiet G used irq → ∀ e r : Cpu, TrapCalled e →
    Apart G (e.reg .rsp + 8) (need + used) → cfuns irq .trapDispatch e r →
    Returned G (need + used) e r

/-- The state in which `x86_64_trap_dispatch` is entered for the interrupt `v` of the state `s`. -/
structure TrapCall (s : Cpu) (v : ℕ) (err : Option UInt64) (e : Cpu) : Prop where
  frame_pointer : e.reg .rdi = e.reg .rsp + 8
  aligned : (e.reg .rdi).toNat % 16 = 0
  direction : e.rflags &&& directionFlag = s.rflags &&& directionFlag
  frame : TrapFrame.read e.mem (e.reg .rdi) = .of s v err

theorem TrapCall.called {e : Cpu} (h : TrapCall s v err e) (hclear : DirectionClear s) :
    TrapCalled e :=
  ⟨h.frame_pointer, h.aligned, h.direction.trans hclear⟩

variable {need used : ℕ} {calls : List (Call CFun)} {e r : Cpu}

/-- The stack pointer after `22` words from an aligned base is aligned. -/
theorem toNat_frame_mod (s : Cpu) : (ptr (aligned s) 22).toNat % 16 = 0 := by
  have hlt := (aligned s).toNat_lt
  have haligned : (aligned s).toNat % 16 = 0 := by
    rw [toNat_aligned]
    omega
  rw [ptr, UInt64.toNat_sub, UInt64.toNat_ofNat']
  omega

/-- How the registers and the stack stand when the function is called. -/
theorem AtTrapCall.trapCall (h : AtTrapCall img s v err (aligned s) a)
    (hsim : Sim G size (aligned s) s.mem a e) :
    TrapCall s v err e ∧ e.reg .rdi = ptr (aligned s) 22 := by
  obtain ⟨ret, b, hstack, -⟩ := h.stack
  have hheld := hsim.stack
  rw [hstack] at hheld
  have hp : e.reg .rdi = ptr (aligned s) 22 := (hsim.reg .rdi (by decide)).trans h.rdi
  have hrsp : e.reg .rsp + 8 = ptr (aligned s) 22 := by
    have hadd := hsim.rsp_add (d := 8) (by decide)
      (by rw [hstack, List.length_cons]; exact Nat.le_add_left _ _)
    rwa [hstack] at hadd
  have hword : ∀ disp w : UInt64, disp.toNat % 8 = 0 →
      (trapWords s v err)[disp.toNat / 8]? = some w →
      e.mem.load (e.reg .rdi + disp) = w := fun disp w hdisp hw => hp ▸ hheld.2.load_add hdisp hw
  refine ⟨⟨hp.trans hrsp.symm, hp ▸ toNat_frame_mod s, hsim.rflags ▸ h.direction, ?_⟩, hp⟩
  simp only [TrapFrame.read, TrapFrame.of, TrapFrame.mk.injEq]
  refine ⟨?_, ?_, ?_, ?_, ?_, ?_, ?_, ?_, ?_, ?_, ?_, ?_, ?_, ?_, ?_, ?_, ?_, ?_, ?_, ?_⟩ <;>
    exact hword _ _ (by decide) rfl

/-- The function has its part of the stack to itself. -/
theorem AtTrapCall.apart (h : AtTrapCall img s v err (aligned s) a)
    (hroom : 8 * a.stack.length + room ≤ size) (hsim : Sim G size (aligned s) s.mem a e)
    (hapart : Apart G (aligned s) size) (hsize : size < 2 ^ 64) :
    Apart G (e.reg .rsp + 8) room := by
  obtain ⟨hcall, hp⟩ := h.trapCall hsim
  obtain ⟨ret, b, hstack, -⟩ := h.stack
  rw [hstack, List.length_cons, length_trapWords] at hroom
  intro x hx
  rw [← hcall.frame_pointer, hp, below_ptr_iff (by omega)] at hx
  exact hapart x ⟨by omega, by omega⟩

/-- A function that keeps the convention lets the handler go on to its return. -/
theorem handler_goesBack (hconv : KeepsConvention cfuns G need) (hquiet : Quiet G used irq)
    (hclear : DirectionClear s) (hapart : Apart G (aligned s) size) (hsize : size < 2 ^ 64) :
    GoesBack img cfuns irq G size (need + used) s .trapDispatch (AtTrapCall img s v err (aligned s))
      fun _ => Restored img s where
  leads a e r h hroom hsim hcall := by
    have hreturned := hconv irq used hquiet e r ((h.trapCall hsim).1.called hclear)
      (h.apart hroom hsim hapart hsize) hcall
    -- the words of the frame are those that were pushed, so the pops restore the registers
    obtain ⟨ret, b, hstack, hcode⟩ := h.stack
    have hne : a.stack ≠ [] := by
      rw [hstack]
      exact List.cons_ne_nil _ _
    obtain ⟨a', hback, hsim'⟩ := hreturned.sim hsim hne hroom hapart hsize
    obtain ⟨hrip, hwords⟩ := List.cons.inj (hstack.symm.trans hback.stack)
    rw [hstack, List.length_cons, length_trapWords] at hroom
    exact ⟨a', leads_return (hrip ▸ hcode) hwords.symm (by omega), hsim'⟩
  iretq _ _ h := h.code
  stack _ _ h := h.stack

/-- A handled interrupt has called the function once, and is transparent. -/
theorem handler_calls (hloaded : IsrLoaded img stubs common dispatch)
    (hconv : KeepsConvention cfuns G need) (hquiet : Quiet G used irq) (hv : v < 48)
    (herr : SuppliesError v err) (hsize : 8 * 23 + (need + used) + 15 < 2 ^ 64)
    (hapart : Apart G (s.reg .rsp) (8 * 23 + (need + used) + 15)) (hclear : DirectionClear s)
    (hhandles : Handles img cfuns irq (stubGate stubs v) err s calls t) :
    ∃ e r, calls = [⟨.trapDispatch, e, r⟩] ∧ cfuns irq .trapDispatch e r ∧ TrapCall s v err e ∧
      Apart G (e.reg .rsp + 8) (need + used) ∧ Transparent G (8 * 23 + (need + used) + 15) s t ∧
      Follows G (need + used) irq s.mem e.mem ∧ Follows G (need + used) irq r.mem t.mem := by
  have hbelow := hapart.aligned hsize
  obtain ⟨e, r, a, b, rfl, hcall, hat, hroom, hsim, hrestored, hresumed, hto, hfrom⟩ :=
    hhandles.one_call (handler_getsTo hloaded hv herr (Nat.le_refl _))
      (handler_goesBack hconv hquiet hclear hbelow (by omega))
      (hquiet.mono (Nat.le_add_left used need)) hapart hsize (by omega)
  exact ⟨e, r, rfl, hcall, (hat.trapCall hsim).1, hat.apart hroom hsim hbelow (by omega),
    hresumed.transparent hrestored, hto, hfrom⟩

/-! ### Interrupts -/

/-- The exception or device interrupt `v` is accepted in the state `s`, through the gate that the
processor finds in the table of the kernel. -/
def Accepted (stubs : ℕ → UInt64) (int80Stub idtBase : UInt64) (idt : Idt) (s : Cpu) (v : UInt8)
    (g : Gate) (err : Option UInt64) : Prop :=
  IdtLoaded s.mem idtBase (bootIdt stubs int80Stub idt) ∧ v.toNat < 48 ∧
    SuppliesError v.toNat err ∧
    (readDescriptor s.mem (idtrInit idtBase) v).map Descriptor.gate = some g

/-- Exceptions and device interrupts that come where the direction flag is clear, as it is in
compiled code. -/
def accepts (stubs : ℕ → UInt64) (int80Stub idtBase : UInt64) (idt : Idt) : Accepts :=
  fun s g err => DirectionClear s ∧ ∃ v, Accepted stubs int80Stub idtBase idt s v g err

theorem Accepted.gate {int80Stub idtBase : UInt64} {idt : Idt} {v : UInt8} {g : Gate}
    (h : Accepted stubs int80Stub idtBase idt s v g err) : g = stubGate stubs v.toNat := by
  obtain ⟨hloaded, hv, -, hdesc⟩ := h
  have hne : v ≠ 0x80 := by
    rintro rfl
    exact absurd hv (by decide)
  rw [readDescriptor_bootIdt hloaded, bootDescriptor, if_neg hne, if_pos hv] at hdesc
  exact (Option.some.inj hdesc).symm

/-- The bytes of the stack that an interrupt takes besides those of `x86_64_trap_dispatch`: the
frame, a return address, and what the alignment leaves out. -/
def interruptBytes (need : ℕ) : ℕ := trapFrameBytes + 8 + 15 + need

theorem depthBytes_succ (need n : ℕ) : depthBytes (interruptBytes need) (n + 1) =
    8 * 23 + (need + depthBytes (interruptBytes need) n) + 15 := by
  simp only [depthBytes, interruptBytes, trapFrameBytes]
  ring

section

variable {int80Stub idtBase : UInt64} {idt : Idt}

/-- The induction on the depth of the interrupts. -/
theorem nested_quiet (hloaded : IsrLoaded img stubs common dispatch)
    (hconv : KeepsConvention cfuns G need) (n : ℕ)
    (hn : depthBytes (interruptBytes need) n < 2 ^ 64) :
    Quiet G (depthBytes (interruptBytes need) n)
      (Nested img cfuns (accepts stubs int80Stub idtBase idt) n) := by
  refine nested_induction (P := fun n s t => Apart G (s.reg .rsp)
    (depthBytes (interruptBytes need) n) →
    Transparent G (depthBytes (interruptBytes need) n) s t) ?_ n hn
  intro n s t g err calls hn hquiet haccepts hhandles hapart
  obtain ⟨hclear, v, haccepted⟩ := haccepts
  rw [depthBytes_succ] at hn hapart ⊢
  rw [haccepted.gate] at hhandles
  -- the interrupts in this handler are one level deeper, where the hypothesis makes them quiet
  obtain ⟨e, r, -, -, -, -, htransparent, -⟩ := handler_calls hloaded hconv hquiet haccepted.2.1
    haccepted.2.2.1 hn hapart hclear hhandles
  exact htransparent

/-- **Interrupts are transparent.**  Let `x86_64_trap_dispatch` keep the calling convention and
leave its frame alone.  Then any exception or device interrupt that comes where the direction flag
is clear and from which the kernel returns, at any instruction, and with handlers interrupted in
their turn up to any depth the stack has room for, leaves the registers, the flags and the memory as
they were, except for bytes below the stack pointer and the function's own data. -/
theorem interrupts_transparent (hloaded : IsrLoaded img stubs common dispatch)
    (hconv : KeepsConvention cfuns G need) (n : ℕ)
    (hn : depthBytes (interruptBytes need) n < 2 ^ 64) {s t : Cpu}
    (hirq : Nested img cfuns (accepts stubs int80Stub idtBase idt) n s t)
    (hapart : Apart G (s.reg .rsp) (depthBytes (interruptBytes need) n)) :
    t.reg = s.reg ∧ t.rip = s.rip ∧ t.rflags = s.rflags ∧ t.cs = s.cs ∧ t.ss = s.ss ∧
      ∀ x, ¬ Below (s.reg .rsp) (depthBytes (interruptBytes need) n) x → ¬ G x →
        t.mem x = s.mem x := by
  have htrans := nested_quiet hloaded hconv n hn s t hirq hapart
  exact ⟨htrans.reg, htrans.rip, htrans.rflags, htrans.cs, htrans.ss, htrans.mem⟩

/-- `x86_64_trap_dispatch` changes the data by steps, if the interrupts in it do. -/
def TrapAdvances {ω : Type} (cfuns : Behaviour CFun) (G : UInt64 → Prop) (need : ℕ) (data : Ram → ω)
    (step : ω → ω → Prop) : Prop :=
  ∀ (irq : Cpu → Cpu → Prop) (used : ℕ), Quiet G used irq → Advances G used data step irq →
    ∀ e r : Cpu, TrapCalled e → Apart G (e.reg .rsp + 8) (need + used) →
      cfuns irq .trapDispatch e r → ReflTransGen step (data e.mem) (data r.mem)

theorem Advances.mono {ω : Type} {data : Ram → ω} {step : ω → ω → Prop} {k : ℕ}
    (h : Advances G room data step irq) (hk : room ≤ k) : Advances G k data step irq :=
  fun s t hirq hapart => h s t hirq (hapart.mono hk)

/-- Then interrupts do, at any depth. -/
theorem nested_advances {ω : Type} {data : Ram → ω} {step : ω → ω → Prop}
    (hloaded : IsrLoaded img stubs common dispatch) (hconv : KeepsConvention cfuns G need)
    (hdata : DataIn G data) (htrap : TrapAdvances cfuns G need data step) (n : ℕ)
    (hn : depthBytes (interruptBytes need) n < 2 ^ 64) :
    Advances G (depthBytes (interruptBytes need) n) data step
      (Nested img cfuns (accepts stubs int80Stub idtBase idt) n) := by
  refine nested_induction (P := fun n s t => Apart G (s.reg .rsp)
    (depthBytes (interruptBytes need) n) → ReflTransGen step (data s.mem) (data t.mem)) ?_ n hn
  intro n s t g err calls hn hadvances haccepts hhandles hapart
  obtain ⟨hclear, v, haccepted⟩ := haccepts
  rw [depthBytes_succ] at hn hapart
  rw [haccepted.gate] at hhandles
  have hquiet : Quiet G (depthBytes (interruptBytes need) n)
      (Nested img cfuns (accepts stubs int80Stub idtBase idt) n) :=
    nested_quiet hloaded hconv n (by omega)
  obtain ⟨e, r, -, hcall, hcalled, hbelow, -, hto, hfrom⟩ := handler_calls hloaded hconv hquiet
    haccepted.2.1 haccepted.2.2.1 hn hapart hclear hhandles
  have hdeep := Advances.mono hadvances (Nat.le_add_left _ need)
  -- before the call, in the function, and behind it
  exact ((hto hdata hdeep).trans (htrap _ _ hquiet hadvances e r (hcalled.called hclear) hbelow
    hcall)).trans (hfrom hdata hdeep)

end

/-! ### An image -/

/-- The stubs, the code behind them and the C functions, in blocks of 64 addresses. -/
def stubBlocks (v : ℕ) : CFun ⊕ List Instr :=
  if v < 48 then .inr (isrStub (UInt64.ofNat (64 * 48)) v)
  else if v = 48 then .inr (isrCommon (UInt64.ofNat (64 * 49)))
  else .inl .trapDispatch

def stubAddress (v : ℕ) : UInt64 := UInt64.ofNat (64 * v)

theorem stubBlocks_loaded :
    IsrLoaded (Image.ofBlocks stubBlocks) stubAddress (stubAddress 48) (stubAddress 49) where
  stub v hv := by
    have hlen : (isrStub (UInt64.ofNat (64 * 48)) v).length ≤ 64 := by
      rw [isrStub]
      split <;> simp
    exact ⟨_, Image.ofBlocks_at (by rw [stubBlocks, if_pos hv]; rfl) hlen (by omega)⟩
  common := ⟨_, Image.ofBlocks_at rfl (by decide) (by decide)⟩
  dispatch := Image.ofBlocks_cfun (by decide) rfl

/-! ### The counters -/

/-- The addresses of `g_ticks` and `trap_count`. -/
def ticksAt : UInt64 := 0x6000

def trapCountAt : UInt64 := 0x6008

/-- The bytes of the two counters. -/
def Counters (x : UInt64) : Prop := (x - ticksAt).toNat < 16

/-- What `x86_64_trap_dispatch` leaves in the memory: it has pushed `rbp`, and counted the trap and,
if it is that of the timer, the tick. -/
def countTrap (e : Cpu) : Ram :=
  let mem := e.mem.store (e.reg .rsp - 8) (e.reg .rbp)
  let mem := mem.store trapCountAt (mem.load trapCountAt + 1)
  if e.mem.load (e.reg .rdi + 120) = 32 then mem.store ticksAt (mem.load ticksAt + 1) else mem

/-- A C function returns; the registers it need not save hold what it left in them. -/
def returnWith (mem : Ram) (e : Cpu) : Cpu where
  reg q := if q = .rsp then e.reg .rsp + 8 else if q ∈ calleeSaved then e.reg q else 0
  rip := e.top
  rflags := e.rflags &&& ~~~statusFlags
  cs := e.cs
  ss := e.ss
  mem := mem

/-- The vectors for which `x86_64_trap_dispatch` returns: the breakpoint and the device
interrupts. -/
def TrapReturns (e : Cpu) : Prop :=
  e.mem.load (e.reg .rdi + 120) = 3 ∨
    32 ≤ e.mem.load (e.reg .rdi + 120) ∧ e.mem.load (e.reg .rdi + 120) ≤ 47

/-- `x86_64_trap_dispatch` from entry to return; it panics for the other exceptions. -/
def CountsTrap (e r : Cpu) : Prop := TrapReturns e ∧ r = returnWith (countTrap e) e

def countsTraps : Behaviour CFun := fun _ f e r => f = .trapDispatch ∧ CountsTrap e r

theorem store_counter {mem : Ram} {x : UInt64} (hx : ¬ Counters x) {a : UInt64}
    (ha : a = ticksAt ∨ a = trapCountAt) (v : UInt64) : mem.store a v x = mem x := by
  refine Ram.store_of_far ?_ v
  have hxlt := x.toNat_lt
  rw [Counters, ticksAt, UInt64.toNat_sub] at hx
  rcases ha with rfl | rfl
  · rw [ticksAt, UInt64.toNat_sub]
    simp only [UInt64.reduceToNat] at hx ⊢
    omega
  · rw [trapCountAt, UInt64.toNat_sub]
    simp only [UInt64.reduceToNat] at hx ⊢
    omega

theorem countTrap_apply {x : UInt64} (hlow : 8 ≤ (x - (e.reg .rsp - 8)).toNat) (hx : ¬ Counters x) :
    countTrap e x = e.mem x := by
  have htraps : ∀ v, (e.mem.store (e.reg .rsp - 8) (e.reg .rbp)).store trapCountAt v x =
      e.mem x := by
    intro v
    rw [store_counter hx (.inr rfl), Ram.store_of_far hlow]
  simp only [countTrap]
  split
  · rw [store_counter hx (.inl rfl), htraps]
  · exact htraps _

@[simp] theorem returnWith_mem (mem : Ram) (e : Cpu) : (returnWith mem e).mem = mem := rfl

theorem returnWith_returned {mem : Ram} {need used : ℕ}
    (hmem : ∀ x, ¬ Below (e.reg .rsp + 8) (need + used) x → ¬ G x → mem x = e.mem x) :
    Returned G (need + used) e (returnWith mem e) where
  rip := rfl
  rsp := by simp only [returnWith, if_true]
  saved q hq := by
    simp only [returnWith, if_neg (calleeSaved_ne_rsp hq), if_pos hq]
  cs := rfl
  ss := rfl
  mem := hmem

/-- The word that a function pushes is part of the stack that it may use. -/
theorem pushed_far {a x : UInt64} {k : ℕ} (hx : ¬ Below (a + 8) (16 + k) x) :
    8 ≤ (x - (a - 8)).toNat := by
  by_contra hnear
  refine hx ?_
  have hxlt := x.toNat_lt
  have ha := a.toNat_lt
  rw [Below, UInt64.toNat_sub, UInt64.toNat_add]
  rw [UInt64.toNat_sub, UInt64.toNat_sub] at hnear
  simp only [UInt64.reduceToNat] at hnear ⊢
  omega

theorem keeps_of_counts (hcounts : ∀ irq e r, cfuns irq .trapDispatch e r → CountsTrap e r) :
    KeepsConvention cfuns Counters 16 := by
  intro irq used _ e r _ _ hcall
  obtain ⟨-, rfl⟩ := hcounts irq e r hcall
  exact returnWith_returned fun x hx hG => countTrap_apply (pushed_far hx) hG

theorem countsTraps_iff (irq : Cpu → Cpu → Prop) (e r : Cpu) :
    countsTraps irq .trapDispatch e r ↔ CountsTrap e r := ⟨fun h => h.2, fun h => ⟨rfl, h⟩⟩

theorem countsTraps_keeps : KeepsConvention countsTraps Counters 16 :=
  keeps_of_counts fun irq e r => (countsTraps_iff irq e r).mp

/-- The value of `g_ticks`. -/
def ticks (mem : Ram) : UInt64 := mem.load ticksAt

theorem dataIn_ticks : DataIn Counters ticks := by
  intro m m' hsame
  refine Ram.load_congr fun i hi => hsame _ ?_
  rw [Counters, Ram.toNat_add_sub_self (by omega)]
  omega

/-- A word outside the counters is not in the way. -/
theorem ticks_store {mem : Ram} {p : UInt64} (hfirst : ¬ Counters p) (hlast : ¬ Counters (p + 7))
    (v : UInt64) : ticks (mem.store p v) = ticks mem := by
  have hp := p.toNat_lt
  rw [Counters, ticksAt, UInt64.toNat_sub] at hfirst hlast
  rw [UInt64.toNat_add] at hlast
  simp only [UInt64.reduceToNat] at hfirst hlast
  refine Ram.load_store_of_apart ?_ ?_ v <;>
    · rw [ticksAt, UInt64.toNat_sub]
      simp only [UInt64.reduceToNat]
      omega

/-- The word that a function pushes is outside the counters. -/
theorem ticks_pushed {mem : Ram} {a : UInt64} {k : ℕ} (hapart : Apart Counters (a + 8) (16 + k))
    (v : UInt64) : ticks (mem.store (a - 8) v) = ticks mem := by
  have ha := a.toNat_lt
  refine ticks_store (hapart _ ?_) (hapart _ ?_) v
  · rw [Below, UInt64.toNat_sub, UInt64.toNat_sub, UInt64.toNat_add]
    simp only [UInt64.reduceToNat]
    omega
  · rw [Below, UInt64.toNat_sub, UInt64.toNat_add, UInt64.toNat_add, UInt64.toNat_sub]
    simp only [UInt64.reduceToNat]
    omega

/-- A trap of the timer counts a tick. -/
theorem ticks_countTrap {k : ℕ} (htimer : e.mem.load (e.reg .rdi + 120) = 32)
    (hapart : Apart Counters (e.reg .rsp + 8) (16 + k)) :
    ticks (countTrap e) = ticks e.mem + 1 := by
  have hpushed : (e.mem.store (e.reg .rsp - 8) (e.reg .rbp)).load ticksAt = e.mem.load ticksAt :=
    ticks_pushed hapart (e.reg .rbp)
  simp only [countTrap, ticks]
  rw [if_pos htimer, Ram.load_store_self, Ram.load_store_of_apart (by decide) (by decide), hpushed]

theorem vector_of_trapCall (h : TrapCall s 32 err e) : e.mem.load (e.reg .rdi + 120) = 32 :=
  congrArg TrapFrame.vector h.frame

theorem exists_countsTrap (h : TrapCall s 32 err e) : ∃ r, CountsTrap e r :=
  ⟨_, .inr (by rw [vector_of_trapCall h]; decide), rfl⟩

/-- A timer interrupt that nothing interrupts is handled, and counts a tick. -/
theorem timer_handled (hloaded : IsrLoaded img stubs common dispatch)
    (hcounts : ∀ irq e r, cfuns irq .trapDispatch e r ↔ CountsTrap e r) (hirq : ∀ s t, ¬ irq s t)
    (hclear : DirectionClear s) (hapart : Apart Counters (s.reg .rsp) (interruptBytes 16)) :
    ∃ calls t, Handles img cfuns irq (stubGate stubs 32) none s calls t ∧
      ticks t.mem = ticks s.mem + 1 := by
  have hquiet : Quiet Counters 0 irq := fun s t h => absurd h (hirq s t)
  have hkeeps : KeepsConvention cfuns Counters 16 :=
    keeps_of_counts fun irq e r => (hcounts irq e r).mp
  have hsupplies : SuppliesError 32 none := by decide
  have hroom : Apart Counters (s.reg .rsp) (8 * 23 + (16 + 0) + 15) := hapart
  have hto : GetsTo img (8 * 23 + (16 + 0)) (16 + 0) (stubGate stubs 32) none s .trapDispatch
      (AtTrapCall img s 32 none (aligned s)) :=
    handler_getsTo hloaded (by decide) hsupplies (Nat.le_refl _)
  obtain ⟨e, r, t, hhandles, hbefore, hafter⟩ := hto.exists_handles
    (handler_goesBack hkeeps hquiet hclear (hroom.aligned (by decide)) (by decide)) (.refl _)
    (sim_entry _ _ s (by decide) (by decide)) (by decide) fun a e hat hsim => by
      obtain ⟨r, hr⟩ := exists_countsTrap (hat.trapCall hsim).1
      exact ⟨r, (hcounts irq e r).mpr hr⟩
  obtain ⟨e', r', hcalls, hcall, hcalled, hbelow, -⟩ := handler_calls hloaded hkeeps hquiet
    (by decide) hsupplies (by decide) hroom hclear hhandles
  obtain ⟨rfl, rfl⟩ : e = e' ∧ r = r' := by simpa using hcalls
  obtain ⟨-, hr⟩ := (hcounts irq e r).mp hcall
  have houtside : ∀ x, Counters x → ¬ Below (aligned s) (8 * 23 + (16 + 0)) x :=
    fun x hx hlow => hroom.aligned (by decide) x hlow hx
  have hentered : ticks e.mem = ticks s.mem := dataIn_ticks _ _ fun x hx => by
    rw [hbefore x (houtside x hx), deliver_mem _ _ s (by decide) (by decide) (houtside x hx)]
  have hcount : ticks r.mem = ticks e.mem + 1 := by
    have htimer := vector_of_trapCall hcalled
    rw [hr, returnWith_mem, ticks_countTrap htimer hbelow]
  have hleft : ticks t.mem = ticks r.mem := dataIn_ticks _ _ fun x hx => hafter x (houtside x hx)
  exact ⟨_, t, hhandles, by rw [hleft, hcount, hentered]⟩

/-- The table before the boot code. -/
def emptyIdt : Idt := fun _ => ⟨0, 0, 0, 0, 0, 0, 0⟩

/-- Kernel code with the table of gates at address zero and its stack above the counters. -/
def kernelState : Cpu where
  reg r := if r = .rsp then 0x9008 else 7
  rip := 0x7000
  rflags := 0x202
  cs := 0x28
  ss := 0x30
  mem := tableMemory (bootIdt stubAddress 0 emptyIdt)

/-- The timer interrupts it. -/
theorem kernelState_timer :
    Accepted stubAddress 0 0 emptyIdt kernelState 32 (stubGate stubAddress 32) none := by
  have hloaded := tableMemory_loaded (bootIdt stubAddress 0 emptyIdt)
  refine ⟨hloaded, by decide, by decide, ?_⟩
  exact congrArg (Option.map Descriptor.gate) (readDescriptor_bootIdt hloaded 32)

/-- The counters lie below the stack. -/
theorem counters_apart {p : UInt64} {n : ℕ} (hp : 0x7000 + n ≤ p.toNat) : Apart Counters p n := by
  intro x hx hcounter
  have hxlt := x.toNat_lt
  have hplt := p.toNat_lt
  rw [Below, UInt64.toNat_sub] at hx
  rw [Counters, ticksAt, UInt64.toNat_sub] at hcounter
  simp only [UInt64.reduceToNat] at hcounter
  omega

theorem kernelState_apart {n : ℕ} (hn : n ≤ 0x2000) : Apart Counters (kernelState.reg .rsp) n := by
  have hrsp : (kernelState.reg .rsp).toNat = 0x9008 := rfl
  exact counters_apart (by omega)

theorem kernelState_clear : DirectionClear kernelState := by
  rw [DirectionClear]
  decide

/-- The timer interrupt is counted, and nothing else shows. -/
theorem interrupts_transparent_timer :
    ∃ t, Nested (Image.ofBlocks stubBlocks) countsTraps (accepts stubAddress 0 0 emptyIdt) 1
        kernelState t ∧
      t.reg = kernelState.reg ∧ t.rip = 0x7000 ∧ ticks t.mem = ticks kernelState.mem + 1 := by
  have hnone : ∀ s t, ¬ Nested (Image.ofBlocks stubBlocks) countsTraps
      (accepts stubAddress 0 0 emptyIdt) 0 s t := fun _ _ h => h
  obtain ⟨calls, t, hhandles, hticks⟩ := timer_handled stubBlocks_loaded countsTraps_iff hnone
    kernelState_clear (kernelState_apart (by decide))
  have hnested : Nested (Image.ofBlocks stubBlocks) countsTraps (accepts stubAddress 0 0 emptyIdt) 1
      kernelState t := ⟨_, none, _, ⟨kernelState_clear, 32, kernelState_timer⟩, hhandles⟩
  obtain ⟨hreg, hrip, -⟩ := interrupts_transparent stubBlocks_loaded countsTraps_keeps 1 (by decide)
    hnested (kernelState_apart (by decide))
  exact ⟨t, hnested, hreg, hrip, hticks⟩

end Mcsos.Arch
