import Mcsos.Arch.Isr
import Mcsos.Syscall.UserRange

/-!
# The entry of system calls

Model of `kernel/arch/x86_64/syscall_entry.S` and of `mcsos_syscall_dispatch_frame`.  The stub of
`int $0x80` builds a `mcsos_syscall_frame_t` from the registers, calls the C function with it, and
returns with the result in `rax`.

The gate leaves interrupts on, so the stub may be interrupted between any two instructions; what is
proved about interrupts makes this invisible.  Unlike `isr_common`, the stub clears the direction
flag; also unlike `isr_common`, it calls the C function with a stack that is not aligned as the
calling convention asks: with the five words of the processor and the eight of the frame the pointer
is eight bytes off, whatever it was before (`system_call_frame`).  What a system call returns
(`system_call_exact`) therefore rests on the function doing without the alignment.
-/

namespace Mcsos.Arch

open X64 Stack Syscall Relation

/-- `mcsos_syscall_frame_t` -/
structure SyscallFrame where
  nr : UInt64
  arg0 : UInt64
  arg1 : UInt64
  arg2 : UInt64
  arg3 : UInt64
  arg4 : UInt64
  arg5 : UInt64
  ret : UInt64
  deriving DecidableEq, Repr

def SyscallFrame.read (mem : Ram) (p : UInt64) : SyscallFrame where
  nr := mem.load (p + 0)
  arg0 := mem.load (p + 8)
  arg1 := mem.load (p + 16)
  arg2 := mem.load (p + 24)
  arg3 := mem.load (p + 32)
  arg4 := mem.load (p + 40)
  arg5 := mem.load (p + 48)
  ret := mem.load (p + 56)

/-- The frame of a system call: the number in `rax`, the arguments in the registers of the
convention. -/
def SyscallFrame.of (s : Cpu) : SyscallFrame where
  nr := s.reg .rax
  arg0 := s.reg .rdi
  arg1 := s.reg .rsi
  arg2 := s.reg .rdx
  arg3 := s.reg .r10
  arg4 := s.reg .r8
  arg5 := s.reg .r9
  ret := 0

section

variable {ω : Type}

/-- The line that `mcsos_syscall_dispatch_frame` writes before anything else. -/
def entryLine : String := "[M10] syscall entry reached\n"

/-- `mcsos_syscall_dispatch` on the fields of a frame. -/
def SyscallFrame.dispatch (ops : Ops ω) (region : UserRegion) (frame : SyscallFrame) (w : ω) :
    Int64 × ω :=
  Syscall.dispatch ops region frame.nr frame.arg0 frame.arg1 frame.arg2 frame.arg3 frame.arg4
    frame.arg5 w

/-- `mcsos_syscall_dispatch_frame` in the build of the kernel, for a pointer that is not null;
`serialWrite` is `serial_write`. -/
def syscallDispatchFrame (serialWrite : String → ω → ω) (ops : Ops ω) (region : UserRegion)
    (frame : SyscallFrame) (w : ω) : SyscallFrame × ω :=
  let w := serialWrite entryLine w
  let (ret, w') := frame.dispatch ops region w
  ({ frame with ret := ret.toUInt64 }, w')

/-- The same with interrupts, which change the data by steps in front of its two statements, between
them and behind them; each statement is taken to act on the data at once. -/
def Serves (step : ω → ω → Prop) (serialWrite : String → ω → ω) (ops : Ops ω) (region : UserRegion)
    (frame : SyscallFrame) (w : ω) (frame' : SyscallFrame) (w' : ω) : Prop :=
  ∃ w₁ w₂, ReflTransGen step w w₁ ∧ ReflTransGen step (serialWrite entryLine w₁) w₂ ∧
    frame' = { frame with ret := (frame.dispatch ops region w₂).1.toUInt64 } ∧
    ReflTransGen step (frame.dispatch ops region w₂).2 w'

variable {step : ω → ω → Prop} {serialWrite : String → ω → ω} {ops : Ops ω} {region : UserRegion}
  {frame frame' : SyscallFrame} {w w' w₀ w₃ : ω}

/-- Without interrupts this is what the source says. -/
theorem serves_iff_of_no_step (hstep : ∀ w w', ¬ step w w') :
    Serves step serialWrite ops region frame w frame' w' ↔
      (frame', w') = syscallDispatchFrame serialWrite ops region frame w := by
  have hnone : ∀ w w', ReflTransGen step w w' ↔ w' = w := fun w _ => reflTransGen_iff_eq (hstep w)
  simp only [Serves, hnone, syscallDispatchFrame, Prod.mk.injEq]
  constructor
  · rintro ⟨w₁, w₂, rfl, rfl, hframe, hw⟩
    exact ⟨hframe, hw⟩
  · rintro ⟨hframe, hw⟩
    exact ⟨w, _, rfl, rfl, hframe, hw⟩

theorem Serves.around (h : Serves step serialWrite ops region frame w frame' w')
    (hbefore : ReflTransGen step w₀ w) (hafter : ReflTransGen step w' w₃) :
    Serves step serialWrite ops region frame w₀ frame' w₃ := by
  obtain ⟨w₁, w₂, hto, hbetween, hframe, hfrom⟩ := h
  exact ⟨w₁, w₂, hbefore.trans hto, hbetween, hframe, hfrom.trans hafter⟩

end

/-- `x86_64_syscall_int80_stub` -/
def int80Stub (dispatch : UInt64) : List Instr :=
  [.cld, .sub 64 .rsp,
   .store .rax 0 .rsp, .store .rdi 8 .rsp, .store .rsi 16 .rsp, .store .rdx 24 .rsp,
   .store .r10 32 .rsp, .store .r8 40 .rsp, .store .r9 48 .rsp, .storeImm 0 56 .rsp,
   .mov .rsp .rdi, .call dispatch,
   .load 56 .rsp .rax, .add 64 .rsp, .iretq]

/-- The words of the frame. -/
def syscallWords (s : Cpu) : List UInt64 :=
  [s.reg .rax, s.reg .rdi, s.reg .rsi, s.reg .rdx, s.reg .r10, s.reg .r8, s.reg .r9, 0]

/-- The end of the stub, behind the call. -/
def int80Return : List Instr := [.load 56 .rsp .rax, .add 64 .rsp, .iretq]

variable {img : Image CFun} {cfuns : Behaviour CFun} {irq : Cpu → Cpu → Prop} {G : UInt64 → Prop}
  {base dispatchAddr stub : UInt64} {size room : ℕ} {s t : Cpu} {a : Abs}

/-! ### The stub -/

/-- In front of the call the pointer to the frame is in `rdi`, and the frame above the return
address. -/
structure AtSyscallCall (img : Image CFun) (s : Cpu) (base : UInt64) (a : Abs) : Prop where
  code : img a.rip = some (.cfun .syscallDispatchFrame)
  rdi : a.reg .rdi = ptr base 13
  direction : a.rflags &&& directionFlag = 0
  saved : ∀ q ∈ calleeSaved, a.reg q = s.reg q
  stack : ∃ ret b, a.stack = ret :: (syscallWords s ++ pushed s none) ∧ img.At ret b int80Return

/-- The state in which the stub returns. -/
structure Returning (img : Image CFun) (s : Cpu) (ret : UInt64) (a : Abs) : Prop where
  code : ∃ next, img a.rip = some (.instr .iretq next)
  stack : a.stack = pushed s none
  result : a.reg .rax = ret
  saved : ∀ q ∈ calleeSaved, a.reg q = s.reg q

/-- The state in the stub with the words `frame` in the place of the frame. -/
def inStub (s : Cpu) (reg : Reg → UInt64) (frame : List UInt64) (rip rflags : UInt64) : Abs :=
  ⟨reg, frame ++ pushed s none, rip, rflags, kernelCodeSelector, s.ss⟩

/-- Storing the registers fills the frame. -/
theorem leads_fill {Q : Abs → Prop} {b rip rflags : UInt64} {front : List UInt64}
    (hcode : img.At rip b [.store .rax 0 .rsp, .store .rdi 8 .rsp, .store .rsi 16 .rsp,
      .store .rdx 24 .rsp, .store .r10 32 .rsp, .store .r8 40 .rsp, .store .r9 48 .rsp,
      .storeImm 0 56 .rsp])
    (hfront : front.length = 8) (hroom : 8 * 13 + room ≤ size)
    (hrest : Leads img base size room Q (inStub s s.reg (syscallWords s) b rflags)) :
    Leads img base size room Q (inStub s s.reg front rip rflags) := by
  obtain ⟨n₁, h0, n₂, h1, n₃, h2, n₄, h3, n₅, h4, n₆, h5, n₇, h6, n₈, h7, rfl⟩ := hcode
  match front, hfront with
  | [w₀, w₁, w₂, w₃, w₄, w₅, w₆, w₇], _ =>
    let frame (k : ℕ) := (syscallWords s).take k ++ [w₀, w₁, w₂, w₃, w₄, w₅, w₆, w₇].drop k
    refine .instr (b := inStub s s.reg (frame 1) n₁ rflags) hroom h0 rfl ?_
    refine .instr (b := inStub s s.reg (frame 2) n₂ rflags) hroom h1 rfl ?_
    refine .instr (b := inStub s s.reg (frame 3) n₃ rflags) hroom h2 rfl ?_
    refine .instr (b := inStub s s.reg (frame 4) n₄ rflags) hroom h3 rfl ?_
    refine .instr (b := inStub s s.reg (frame 5) n₅ rflags) hroom h4 rfl ?_
    refine .instr (b := inStub s s.reg (frame 6) n₆ rflags) hroom h5 rfl ?_
    refine .instr (b := inStub s s.reg (frame 7) n₇ rflags) hroom h6 rfl ?_
    exact .instr (b := inStub s s.reg (frame 8) n₈ rflags) hroom h7 rfl hrest

/-- The stub clears the direction flag and gets to its call. -/
theorem leads_int80 (hcode : ∃ b, img.At stub b (int80Stub dispatchAddr))
    (hdispatch : img dispatchAddr = some (.cfun .syscallDispatchFrame))
    (hroom : 8 * 14 + room ≤ size) :
    Leads img base size room (AtSyscallCall img s base) (entry (int80Gate stub) none s) := by
  obtain ⟨b, n₁, hcld, n₂, hsub, hcode⟩ := hcode
  obtain ⟨b₁, hfill, n₃, hmov, n₄, hcall, hreturn⟩ := Image.At.append (p := [.store .rax 0 .rsp,
    .store .rdi 8 .rsp, .store .rsi 16 .rsp, .store .rdx 24 .rsp, .store .r10 32 .rsp,
    .store .r8 40 .rsp, .store .r9 48 .rsp, .storeImm 0 56 .rsp]) hcode
  have hlen : (pushed s none).length = 5 := rfl
  have hroom' : 8 * 13 + room ≤ size := by omega
  -- `sub` leaves whatever was below the stack in the frame
  refine .instr (by simp only [entry]; omega) hcld rfl ?_
  refine .reserve (k := 8) (by simp only [entry]; omega) hsub fun front hfront => ?_
  refine leads_fill hfill hfront hroom' ?_
  refine .instr (b := inStub s (Function.update s.reg .rdi (ptr base 13)) (syscallWords s) n₃ _)
    hroom' hmov rfl ?_
  refine .instr (b := ⟨Function.update s.reg .rdi (ptr base 13),
    n₄ :: (syscallWords s ++ pushed s none), dispatchAddr, _, kernelCodeSelector,
    s.ss⟩) hroom' hcall
    rfl ?_
  -- `rdi` held the first argument, which is in the frame now
  have hrdi : Function.update s.reg .rdi (ptr base 13) .rdi = ptr base 13 := Function.update_self ..
  have hsaved : ∀ q ∈ calleeSaved, Function.update s.reg .rdi (ptr base 13) q = s.reg q := by
    intro q hq
    refine Function.update_of_ne ?_ _ _
    rintro rfl
    exact absurd hq (by decide)
  refine .done hroom ⟨hdispatch, hrdi, ?_, hsaved, n₄, b, rfl, hreturn⟩
  exact (arithmeticFlags_direction ..).trans (and_and_of_disjoint _ (by decide))

/-- The end of the stub takes the result from the frame. -/
theorem leads_result {b ret : UInt64} (hcode : img.At a.rip b int80Return)
    (hstack : a.stack = (syscallWords s).set 7 ret ++ pushed s none)
    (hsaved : ∀ q ∈ calleeSaved, a.reg q = s.reg q) (hroom : 8 * 13 + room ≤ size) :
    Leads img base size room (Returning img s ret) a := by
  obtain ⟨n₁, hload, n₂, hadd, n₃, hiret, -⟩ := hcode
  have hlen : a.stack.length = 13 := by rw [hstack]; rfl
  have hexec : a.exec base (.load 56 .rsp .rax) n₁ = some (a.setReg .rax ret n₁) := by
    simp only [Abs.exec, hstack]
    rfl
  refine .instr (by omega) hload hexec ?_
  have hexec' : (a.setReg .rax ret n₁).exec base (.add 64 .rsp) n₂ = some
      { a.setReg .rax ret n₂ with
        stack := pushed s none
        rflags := addFlags a.rflags (a.rsp base) 64 } := by
    simp only [Abs.exec, Abs.setReg, Abs.rsp, hstack]
    rfl
  refine .instr (by simp only [Abs.setReg]; omega) hadd hexec' ?_
  refine .done (by change 8 * 5 + room ≤ size; omega) ⟨⟨n₃, hiret⟩, rfl, ?_, fun q hq => ?_⟩
  · simp only [Abs.setReg, Function.update_self]
  · have hne : q ≠ .rax := by
      rintro rfl
      exact absurd hq (by decide)
    simp only [Abs.setReg, Function.update_of_ne hne]
    exact hsaved q hq

/-! ### The C function -/

/-- `mcsos_syscall_dispatch_frame` is called with the frame right above its return address, not at
the null pointer, and with the direction flag clear.  Nothing is said about the alignment of the
stack. -/
def SyscallCalled (e : Cpu) : Prop :=
  e.reg .rdi = e.reg .rsp + 8 ∧ e.reg .rdi ≠ 0 ∧ DirectionClear e

/-- The handlers own none of the frame, and none of the bytes of the stack that the function
uses. -/
def FrameApart (G : UInt64 → Prop) (need : ℕ) (e : Cpu) : Prop :=
  Apart G (e.reg .rdi + 64) (64 + need)

/-- Called like that, `mcsos_syscall_dispatch_frame` keeps the calling convention.  In the memory of
its caller it changes the result in the frame only. -/
def KeepsCaller (cfuns : Behaviour CFun) (G : UInt64 → Prop) (need : ℕ) : Prop :=
  ∀ (irq : Cpu → Cpu → Prop) (used : ℕ), Quiet G used irq → ∀ e r : Cpu, SyscallCalled e →
    FrameApart G (need + used) e → cfuns irq .syscallDispatchFrame e r →
    Returned (fun x => G x ∨ (x - (e.reg .rdi + 56)).toNat < 8) (need + used) e r

/-- It does to the frame and to the data of the kernel what its source says. -/
def ServesFrame {ω : Type} (cfuns : Behaviour CFun) (G : UInt64 → Prop) (need : ℕ) (data : Ram → ω)
    (serialWrite : String → ω → ω) (ops : Ops ω) (region : UserRegion) : Prop :=
  ∀ (irq : Cpu → Cpu → Prop) (used : ℕ) (step : ω → ω → Prop), Quiet G used irq →
    Advances G used data step irq → ∀ e r : Cpu, SyscallCalled e →
    FrameApart G (need + used) e → cfuns irq .syscallDispatchFrame e r →
    Serves step serialWrite ops region (SyscallFrame.read e.mem (e.reg .rdi)) (data e.mem)
      (SyscallFrame.read r.mem (e.reg .rdi)) (data r.mem)

/-- The state in which `mcsos_syscall_dispatch_frame` is entered for a system call of the state `s`.
-/
structure SyscallCall (s e : Cpu) : Prop where
  frame_pointer : e.reg .rdi = e.reg .rsp + 8
  misaligned : (e.reg .rdi).toNat % 16 = 8
  direction : DirectionClear e
  frame : SyscallFrame.read e.mem (e.reg .rdi) = .of s

theorem SyscallCall.called {e : Cpu} (h : SyscallCall s e) : SyscallCalled e := by
  refine ⟨h.frame_pointer, fun hnull => ?_, h.direction⟩
  have hmod := h.misaligned
  rw [hnull] at hmod
  exact absurd hmod (by decide)

section

variable {need used : ℕ} {calls : List (Call CFun)} {e r : Cpu}

theorem toNat_syscall_frame_mod (s : Cpu) : (ptr (aligned s) 13).toNat % 16 = 8 := by
  have hlt := (aligned s).toNat_lt
  have haligned : (aligned s).toNat % 16 = 0 := by
    rw [toNat_aligned]
    omega
  rw [ptr, UInt64.toNat_sub, UInt64.toNat_ofNat']
  omega

/-- How the registers and the stack stand when the function is called. -/
theorem AtSyscallCall.syscallCall (h : AtSyscallCall img s (aligned s) a)
    (hsim : Sim G size (aligned s) s.mem a e) :
    SyscallCall s e ∧ e.reg .rdi = ptr (aligned s) 13 := by
  obtain ⟨ret, b, hstack, -⟩ := h.stack
  have hheld := hsim.stack
  rw [hstack] at hheld
  have hp : e.reg .rdi = ptr (aligned s) 13 := (hsim.reg .rdi (by decide)).trans h.rdi
  have hrsp : e.reg .rsp + 8 = ptr (aligned s) 13 := by
    have hadd := hsim.rsp_add (d := 8) (by decide)
      (by rw [hstack, List.length_cons]; exact Nat.le_add_left _ _)
    rwa [hstack] at hadd
  have hword : ∀ disp w : UInt64, disp.toNat % 8 = 0 →
      (syscallWords s ++ pushed s none)[disp.toNat / 8]? = some w →
      e.mem.load (e.reg .rdi + disp) = w := fun disp w hdisp hw => hp ▸ hheld.2.load_add hdisp hw
  have hdirection : DirectionClear e := by
    rw [DirectionClear, hsim.rflags]
    exact h.direction
  refine ⟨⟨hp.trans hrsp.symm, hp ▸ toNat_syscall_frame_mod s, hdirection, ?_⟩, hp⟩
  simp only [SyscallFrame.read, SyscallFrame.of, SyscallFrame.mk.injEq]
  refine ⟨?_, ?_, ?_, ?_, ?_, ?_, ?_, ?_⟩ <;> exact hword _ _ (by decide) rfl

/-- The function has the frame and its part of the stack to itself. -/
theorem AtSyscallCall.apart (h : AtSyscallCall img s (aligned s) a)
    (hroom : 8 * a.stack.length + room ≤ size) (hsim : Sim G size (aligned s) s.mem a e)
    (hapart : Apart G (aligned s) size) (hsize : size < 2 ^ 64) : FrameApart G room e := by
  obtain ⟨-, hp⟩ := h.syscallCall hsim
  obtain ⟨ret, b, hstack, -⟩ := h.stack
  have hlen : a.stack.length = 14 := by rw [hstack]; rfl
  have htop : e.reg .rdi + 64 = ptr (aligned s) 5 := by
    rw [hp]
    exact ptr_add (aligned s) 5 8
  intro x hx
  rw [htop, below_ptr_iff (by omega)] at hx
  exact hapart x ⟨by omega, by omega⟩

/-- The stub of the system calls and the function it calls are in memory. -/
structure Int80Loaded (img : Image CFun) (stub dispatchAddr : UInt64) : Prop where
  stub : ∃ b, img.At stub b (int80Stub dispatchAddr)
  dispatch : img dispatchAddr = some (.cfun .syscallDispatchFrame)

theorem int80_getsTo (hint80 : Int80Loaded img stub dispatchAddr) (hroom : 8 * 14 + room ≤ size) :
    GetsTo img size room (int80Gate stub) none s .syscallDispatchFrame
      (AtSyscallCall img s (aligned s)) :=
  ⟨leads_int80 hint80.stub hint80.dispatch hroom, fun _ h => h.code⟩

/-- The result that the function has left in the frame. -/
def frameResult (s r : Cpu) : UInt64 := (SyscallFrame.read r.mem (ptr (aligned s) 13)).ret

theorem int80_goesBack (hkeeps : KeepsCaller cfuns G need) (hquiet : Quiet G used irq)
    (hapart : Apart G (aligned s) size) (hsize : size < 2 ^ 64) :
    GoesBack img cfuns irq G size (need + used) s .syscallDispatchFrame
      (AtSyscallCall img s (aligned s)) fun r => Returning img s (frameResult s r) where
  leads a e r h hroom hsim hcall := by
    obtain ⟨hcalled, hp⟩ := h.syscallCall hsim
    have hreturned :=
      hkeeps irq used hquiet e r hcalled.called (h.apart hroom hsim hapart hsize) hcall
    rw [hcalled.frame_pointer] at hreturned
    obtain ⟨ret, b, hstack, hcode⟩ := h.stack
    have hne : a.stack ≠ [] := by
      rw [hstack]
      exact List.cons_ne_nil _ _
    have hlen : a.stack.tail.length = 13 := by rw [hstack]; rfl
    -- of the frame only the word of the result, the eighth, may have changed
    obtain ⟨a', hback, hsim'⟩ := hreturned.sim_word hsim hne hroom hapart hsize (by decide)
      (by rw [hlen]; decide)
    obtain ⟨hrip, hwords⟩ := List.cons.inj (hstack.symm.trans hback.stack)
    have hresult : r.mem.load (e.reg .rsp + 8 + 56) = frameResult s r := by
      rw [← hcalled.frame_pointer, hp]
      rfl
    rw [hresult] at hsim'
    have hlen' : a.stack.length = 14 := by rw [hstack]; rfl
    refine ⟨_, leads_result (hrip ▸ hcode) ?_ (fun q hq => ?_) (by omega), hsim'⟩
    · simp only [← hwords]
      rfl
    · exact (hback.saved q hq).trans (h.saved q hq)
  iretq _ _ h := h.code
  stack _ _ h := h.stack

/-- The bytes of the stack that a system call takes besides those of
`mcsos_syscall_dispatch_frame`. -/
def syscallBytes (need used : ℕ) : ℕ := 8 * 14 + (need + used) + 15

/-- A system call that has returned has called the function once. -/
theorem int80_calls (hint80 : Int80Loaded img stub dispatchAddr) (hkeeps : KeepsCaller cfuns G need)
    (hquiet : Quiet G used irq) (hsize : syscallBytes need used < 2 ^ 64)
    (hapart : Apart G (s.reg .rsp) (syscallBytes need used))
    (hhandles : Handles img cfuns irq (int80Gate stub) none s calls t) :
    ∃ e r b, calls = [⟨.syscallDispatchFrame, e, r⟩] ∧ cfuns irq .syscallDispatchFrame e r ∧
      SyscallCall s e ∧ e.reg .rdi = ptr (aligned s) 13 ∧ FrameApart G (need + used) e ∧
      Returning img s (frameResult s r) b ∧ Resumed G (syscallBytes need used) s b t ∧
      Follows G (need + used) irq s.mem e.mem ∧ Follows G (need + used) irq r.mem t.mem := by
  rw [syscallBytes] at hsize hapart ⊢
  have hbelow := hapart.aligned hsize
  obtain ⟨e, r, a, b, rfl, hcall, hat, hroom, hsim, hreturning, hresumed, hto, hfrom⟩ :=
    hhandles.one_call (int80_getsTo hint80 (Nat.le_refl _))
      (int80_goesBack hkeeps hquiet hbelow (by omega)) (hquiet.mono (Nat.le_add_left used need))
      hapart hsize (by omega)
  obtain ⟨hcalled, hp⟩ := hat.syscallCall hsim
  exact ⟨e, r, b, rfl, hcall, hcalled, hp, hat.apart hroom hsim hbelow (by omega),
    hreturning, hresumed, hto, hfrom⟩

/-- `int $0x80` was executed in kernel code that goes on at `s`, with the gate that the processor
finds in the table. -/
def SystemCall (stubs : ℕ → UInt64) (stub idtBase : UInt64) (idt : Idt) (s : Cpu) (g : Gate) :
    Prop :=
  IdtLoaded s.mem idtBase (bootIdt stubs stub idt) ∧
    (readDescriptor s.mem (idtrInit idtBase) 0x80).map Descriptor.gate = some g

variable {stubs : ℕ → UInt64} {common trapAddr idtBase : UInt64} {idt : Idt}
  {trapNeed : ℕ} {g : Gate}

theorem SystemCall.gate (h : SystemCall stubs stub idtBase idt s g) : g = int80Gate stub := by
  obtain ⟨hloaded, hdesc⟩ := h
  rw [readDescriptor_bootIdt hloaded, bootDescriptor, if_pos rfl] at hdesc
  exact (Option.some.inj hdesc).symm

/-- **System calls.**  The stub enters `mcsos_syscall_dispatch_frame` with a stack that is not
aligned (`system_call_frame`); let the function still keep the calling convention and do what its
source says, and let the interrupts change the data of the kernel by steps.  Then a system call that
returns has done to this data what the function does, with steps of interrupts in between, and has
the function's result for the number in `rax` and the arguments in `rdi`, `rsi`, `rdx`, `r10`, `r8`
and `r9`; the stack pointer, the flags, the callee-saved registers and the memory are as before,
except for bytes below the stack pointer and the data of the C functions. -/
theorem system_call_exact {ω : Type} {data : Ram → ω} {step : ω → ω → Prop}
    {serialWrite : String → ω → ω} {ops : Ops ω} {region : UserRegion}
    (hloaded : IsrLoaded img stubs common trapAddr) (hint80 : Int80Loaded img stub dispatchAddr)
    (hconv : KeepsConvention cfuns G trapNeed) (hkeeps : KeepsCaller cfuns G need)
    (hserves : ServesFrame cfuns G need data serialWrite ops region) (hdata : DataIn G data)
    (htrap : TrapAdvances cfuns G trapNeed data step) (n : ℕ)
    (hn : syscallBytes need (depthBytes (interruptBytes trapNeed) n) < 2 ^ 64)
    (hapart : Apart G (s.reg .rsp) (syscallBytes need (depthBytes (interruptBytes trapNeed) n)))
    (hcall : SystemCall stubs stub idtBase idt s g)
    (hreturns : Handles img cfuns (Nested img cfuns (accepts stubs stub idtBase idt) n) g none s
      calls t) :
    (∃ frame, Serves step serialWrite ops region (.of s) (data s.mem) frame (data t.mem) ∧
        t.reg .rax = frame.ret) ∧
      (∀ q ∈ calleeSaved, t.reg q = s.reg q) ∧ t.reg .rsp = s.reg .rsp ∧ t.rip = s.rip ∧
      t.rflags = s.rflags ∧ t.cs = s.cs ∧ t.ss = s.ss ∧
      ∀ x, ¬ Below (s.reg .rsp) (syscallBytes need (depthBytes (interruptBytes trapNeed) n)) x →
        ¬ G x → t.mem x = s.mem x := by
  rw [hcall.gate] at hreturns
  have hdepth : depthBytes (interruptBytes trapNeed) n < 2 ^ 64 := by
    rw [syscallBytes] at hn
    omega
  have hquiet : Quiet G (depthBytes (interruptBytes trapNeed) n)
      (Nested img cfuns (accepts stubs stub idtBase idt) n) := nested_quiet hloaded hconv n hdepth
  have hadvances : Advances G (depthBytes (interruptBytes trapNeed) n) data step
      (Nested img cfuns (accepts stubs stub idtBase idt) n) :=
    nested_advances hloaded hconv hdata htrap n hdepth
  have hdeep := Advances.mono hadvances (Nat.le_add_left _ need)
  obtain ⟨e, r, b, -, hcalled, hframe, hp, hbelow, hreturning, hresumed, hto, hfrom⟩ :=
    int80_calls hint80 hkeeps hquiet hn hapart hreturns
  -- the interrupts of the stub come before and behind those of the function
  have hserved := hserves _ _ step hquiet hadvances e r hframe.called hbelow hcalled
  rw [hframe.frame] at hserved
  refine ⟨⟨_, hserved.around (hto hdata hdeep) (hfrom hdata hdeep), ?_⟩, fun q hq => ?_,
    hresumed.rsp, hresumed.rip, hresumed.rflags, hresumed.cs, hresumed.ss, hresumed.mem⟩
  · rw [hresumed.reg .rax (by decide), hreturning.result, frameResult, hp]
  · rw [hresumed.reg q (calleeSaved_ne_rsp hq), hreturning.saved q hq]

end

/-! ### An image -/

/-- The image of the stubs with that of the system calls. -/
def syscallBlocks (v : ℕ) : CFun ⊕ List Instr :=
  if v = 50 then .inr (int80Stub (UInt64.ofNat (64 * 51)))
  else if v = 51 then .inl .syscallDispatchFrame
  else stubBlocks v

theorem syscallBlocks_loaded :
    IsrLoaded (Image.ofBlocks syscallBlocks) stubAddress (stubAddress 48) (stubAddress 49) where
  stub v hv := by
    have hlen : (isrStub (UInt64.ofNat (64 * 48)) v).length ≤ 64 := by
      rw [isrStub]
      split <;> simp
    have hblock : syscallBlocks v = .inr (isrStub (UInt64.ofNat (64 * 48)) v) := by
      rw [syscallBlocks, if_neg (by omega), if_neg (by omega), stubBlocks, if_pos hv]
    exact ⟨_, Image.ofBlocks_at hblock hlen (by omega)⟩
  common := ⟨_, Image.ofBlocks_at rfl (by decide) (by decide)⟩
  dispatch := Image.ofBlocks_cfun (by decide) rfl

theorem syscallBlocks_int80 :
    Int80Loaded (Image.ofBlocks syscallBlocks) (stubAddress 50) (stubAddress 51) where
  stub := ⟨_, Image.ofBlocks_at rfl (by decide) (by decide)⟩
  dispatch := Image.ofBlocks_cfun (by decide) rfl

/-- Of the callbacks the kernel has registered that for the ticks. -/
def tickOps : Ops UInt64 := init (some ⟨some fun w => (w, w), none, none, none⟩)

theorem tickOps_dispatch (frame : SyscallFrame) (w : UInt64) :
    (frame.dispatch tickOps ⟨0, 0⟩ w).2 = w := by
  rw [SyscallFrame.dispatch, Syscall.dispatch]
  split
  · rfl
  · split
    · next fn hfn =>
        have hmem := List.mem_of_getElem? hfn
        simp only [table, List.mem_cons, Option.some.injEq, List.not_mem_nil, or_false] at hmem
        rcases hmem with rfl | rfl | rfl | rfl | rfl
        · rfl
        · rfl
        · rw [sysWriteSerial]
          split_ifs <;> rfl
        · rfl
        · rfl
    · rfl

/-- What `mcsos_syscall_dispatch_frame` leaves in the memory: it has pushed `rbp` and stored the
result. -/
def serveFrame (e : Cpu) : Ram :=
  (e.mem.store (e.reg .rsp - 8) (e.reg .rbp)).store (e.reg .rdi + 56)
    (syscallDispatchFrame (fun _ w => w) tickOps ⟨0, 0⟩ (SyscallFrame.read e.mem (e.reg .rdi))
      (ticks e.mem)).1.ret

theorem ticks_serveFrame {e : Cpu} {k : ℕ} (hcalled : SyscallCalled e)
    (hapart : FrameApart Counters (16 + k) e) : ticks (serveFrame e) = ticks e.mem := by
  have hrsp : e.reg .rsp - 8 = e.reg .rdi + (-16) := by
    rw [hcalled.1]
    grind
  have hfield : e.reg .rdi + 56 + 7 = e.reg .rdi + 63 := by grind
  have hpushed : e.reg .rdi + (-16) + 7 = e.reg .rdi + (-9) := by grind
  have hoff : ∀ d : UInt64, 0 < (64 - d).toNat → (64 - d).toNat ≤ 80 →
      ¬ Counters (e.reg .rdi + d) := by
    intro d hpos hle
    refine hapart _ ?_
    have hdiff : e.reg .rdi + 64 - (e.reg .rdi + d) = 64 - d := by grind
    rw [Below, hdiff]
    omega
  have hresult : ¬ Counters (e.reg .rdi + 56 + 7) := by
    rw [hfield]
    exact hoff 63 (by decide) (by decide)
  have hsaved : ¬ Counters (e.reg .rdi + (-16) + 7) := by
    rw [hpushed]
    exact hoff (-9) (by decide) (by decide)
  rw [serveFrame, ticks_store (hoff 56 (by decide) (by decide)) hresult, hrsp,
    ticks_store (hoff (-16) (by decide) (by decide)) hsaved]

/-- The two C functions, with the counters of the ticks and the traps. -/
def countsAndServes : Behaviour CFun := fun _ f e r =>
  match f with
  | .trapDispatch => CountsTrap e r
  | .syscallDispatchFrame => r = returnWith (serveFrame e) e

theorem countsAndServes_traps (irq : Cpu → Cpu → Prop) (e r : Cpu) :
    countsAndServes irq .trapDispatch e r ↔ CountsTrap e r := Iff.rfl

theorem countsAndServes_keeps : KeepsConvention countsAndServes Counters 16 :=
  keeps_of_counts fun _ _ _ h => h

theorem countsAndServes_caller : KeepsCaller countsAndServes Counters 16 := by
  rintro irq used - e r - - rfl
  refine returnWith_returned fun x hx hG => ?_
  rw [not_or] at hG
  rw [serveFrame, Ram.store_of_far (Nat.not_lt.mp hG.2), Ram.store_of_far (pushed_far hx)]

theorem countsAndServes_serves :
    ServesFrame countsAndServes Counters 16 ticks (fun _ w => w) tickOps ⟨0, 0⟩ := by
  rintro irq used step - - e r hcalled hapart rfl
  have hrdi := hcalled.1
  refine ⟨ticks e.mem, ticks e.mem, .refl, .refl, ?_, ?_⟩
  · have hsp : e.reg .rsp - 8 = e.reg .rdi + (-16) := by
      rw [hrdi]
      grind
    simp only [returnWith_mem, serveFrame, hsp, SyscallFrame.read, syscallDispatchFrame,
      SyscallFrame.mk.injEq]
    refine ⟨?_, ?_, ?_, ?_, ?_, ?_, ?_, Ram.load_store_self _ _ _⟩ <;>
      rw [Ram.load_store_add (by decide) (by decide), Ram.load_store_add (by decide) (by decide)]
  · rw [tickOps_dispatch, returnWith_mem, ticks_serveFrame hcalled hapart]

theorem countsAndServes_advances :
    TrapAdvances countsAndServes Counters 16 ticks fun w w' => w' = w + 1 := by
  intro irq used _ _ e r _ hapart hcounts
  rw [hcounts.2, returnWith_mem]
  by_cases htimer : e.mem.load (e.reg .rdi + 120) = 32
  · have hcount : ticks (countTrap e) = ticks e.mem + 1 := ticks_countTrap htimer hapart
    exact ReflTransGen.single hcount
  · have hsame : ticks (countTrap e) = ticks e.mem := by
      rw [countTrap, if_neg htimer]
      exact (Ram.load_store_of_apart (by decide) (by decide) _).trans (ticks_pushed hapart _)
    rw [hsame]

/-- Kernel code that asks for the ticks, of which there are five. -/
def tickState : Cpu :=
  { kernelState with
    reg := Function.update kernelState.reg .rax 1
    mem := (tableMemory (bootIdt stubAddress (stubAddress 50) emptyIdt)).store ticksAt 5 }

theorem tickState_ticks : ticks tickState.mem = 5 := Ram.load_store_self _ _ _

theorem tickState_loaded :
    IdtLoaded tickState.mem 0 (bootIdt stubAddress (stubAddress 50) emptyIdt) := by
  refine (tableMemory_loaded _).congr fun x hx => Ram.store_of_far ?_ _
  have hxlt := x.toNat_lt
  rw [UInt64.sub_zero] at hx
  rw [ticksAt, UInt64.toNat_sub]
  simp only [UInt64.reduceToNat]
  omega

theorem tickState_call : SystemCall stubAddress (stubAddress 50) 0 emptyIdt tickState
    (int80Gate (stubAddress 50)) :=
  ⟨tickState_loaded, congrArg (Option.map Descriptor.gate)
    (readDescriptor_bootIdt tickState_loaded 0x80)⟩

theorem tickState_apart {k : ℕ} (hk : k ≤ 0x2000) : Apart Counters (tickState.reg .rsp) k :=
  kernelState_apart hk

/-- The interrupts during its system call. -/
abbrev tickIrq (n : ℕ) : Cpu → Cpu → Prop :=
  Nested (Image.ofBlocks syscallBlocks) countsAndServes
    (accepts stubAddress (stubAddress 50) 0 emptyIdt) n

/-- The timer may interrupt the stub at its first instruction. -/
theorem tickState_interrupted :
    ∃ d, tickIrq 1 (deliver (int80Gate (stubAddress 50)) none tickState) d ∧ ticks d.mem = 6 := by
  have houtside : ∀ x : UInt64, x.toNat < 0x8000 → ¬ Below (aligned tickState) 48 x := by
    intro x hx hlow
    have hbase : aligned tickState = 0x9000 := by decide
    rw [hbase, Below, UInt64.toNat_sub] at hlow
    simp only [UInt64.reduceToNat] at hlow
    omega
  have hsame : ∀ x : UInt64, x.toNat < 0x8000 →
      (deliver (int80Gate (stubAddress 50)) none tickState).mem x = tickState.mem x :=
    fun x hx => deliver_mem _ _ _ (by decide) (by decide) (houtside x hx)
  have hloaded : IdtLoaded (deliver (int80Gate (stubAddress 50)) none tickState).mem 0
      (bootIdt stubAddress (stubAddress 50) emptyIdt) :=
    tickState_loaded.congr fun x hx => hsame x (by rw [UInt64.sub_zero] at hx; omega)
  have hclear : DirectionClear (deliver (int80Gate (stubAddress 50)) none tickState) := by
    rw [DirectionClear]
    decide
  have hapart : Apart Counters ((deliver (int80Gate (stubAddress 50)) none tickState).reg .rsp)
      (interruptBytes 16) := by
    have hrsp : (deliver (int80Gate (stubAddress 50)) none tickState).reg .rsp = 0x8FD8 := by decide
    rw [hrsp]
    exact counters_apart (by decide)
  have hticks : ticks (deliver (int80Gate (stubAddress 50)) none tickState).mem = 5 := by
    rw [← tickState_ticks]
    refine dataIn_ticks _ _ fun x hx => hsame x ?_
    rw [Counters, ticksAt, UInt64.toNat_sub] at hx
    simp only [UInt64.reduceToNat] at hx
    have hxlt := x.toNat_lt
    omega
  -- the handler of the timer is not interrupted in its turn
  have hnone : ∀ s t, ¬ tickIrq 0 s t := fun _ _ h => h
  obtain ⟨calls, d, hhandles, hcount⟩ :=
    timer_handled syscallBlocks_loaded countsAndServes_traps hnone hclear hapart
  refine ⟨d, ⟨_, none, calls, ⟨hclear, 32, hloaded, by decide, by decide, ?_⟩, hhandles⟩, ?_⟩
  · exact congrArg (Option.map Descriptor.gate) (readDescriptor_bootIdt hloaded 32)
  · rw [hcount, hticks]
    rfl

/-- The system call that this interrupt comes into. -/
theorem tickState_handled :
    ∃ e r t, Handles (Image.ofBlocks syscallBlocks) countsAndServes (tickIrq 1)
        (int80Gate (stubAddress 50)) none tickState [⟨.syscallDispatchFrame, e, r⟩] t ∧
      ticks e.mem = 6 ∧ t.reg .rax = 6 := by
  obtain ⟨d, hirq, hticks⟩ := tickState_interrupted
  have hsize : syscallBytes 16 (depthBytes (interruptBytes 16) 1) < 2 ^ 64 := by decide
  have hapart : Apart Counters (tickState.reg .rsp)
      (8 * 14 + (16 + depthBytes (interruptBytes 16) 1) + 15) := tickState_apart (by decide)
  have hbelow := hapart.aligned hsize
  have hquiet : Quiet Counters (depthBytes (interruptBytes 16) 1) (tickIrq 1) :=
    nested_quiet syscallBlocks_loaded countsAndServes_keeps 1 (by decide)
  have hto : GetsTo (Image.ofBlocks syscallBlocks)
      (8 * 14 + (16 + depthBytes (interruptBytes 16) 1))
      (16 + depthBytes (interruptBytes 16) 1) (int80Gate (stubAddress 50)) none tickState
      .syscallDispatchFrame (AtSyscallCall (Image.ofBlocks syscallBlocks) tickState
        (aligned tickState)) :=
    int80_getsTo syscallBlocks_int80 (Nat.le_refl _)
  have hsim := (sim_entry (G := Counters) (int80Gate (stubAddress 50)) none tickState (by decide)
    (by decide)).irq hirq (hquiet.mono (Nat.le_add_left _ 16)) hbelow (by decide) hto.leads.room_le
  obtain ⟨e, r, t, hhandles, hbefore, -⟩ := hto.exists_handles
    (int80_goesBack countsAndServes_caller hquiet hbelow (by decide)) (.irq hirq (.refl d)) hsim
    (by decide) fun _ _ _ _ => ⟨_, rfl⟩
  obtain ⟨e', r', b, hcalls, hr, hframe, hp, -, hreturning, hresumed, -⟩ := int80_calls
    syscallBlocks_int80 countsAndServes_caller hquiet hsize hapart hhandles
  obtain ⟨rfl, rfl⟩ : e = e' ∧ r = r' := by simpa using hcalls
  have hentered : ticks e.mem = 6 := by
    rw [← hticks]
    exact dataIn_ticks _ _ fun x hx => hbefore x fun hlow => hbelow x hlow hx
  refine ⟨e, r, t, hhandles, hentered, ?_⟩
  have hresult : frameResult tickState r = r.mem.load (e.reg .rdi + 56) := by
    rw [hp]
    rfl
  have hstored : r.mem = serveFrame e := congrArg Cpu.mem hr
  rw [hresumed.reg .rax (by decide), hreturning.result, hresult, hstored, serveFrame,
    Ram.load_store_self, hframe.frame, hentered]
  decide

/-- In the stub the timer counts the sixth tick, and the system call returns it. -/
theorem system_call_exact_ticks :
    ∃ calls t, Handles (Image.ofBlocks syscallBlocks) countsAndServes (tickIrq 1)
        (int80Gate (stubAddress 50)) none tickState calls t ∧
      t.reg .rax = 6 ∧ t.reg .rbx = tickState.reg .rbx ∧ t.rip = 0x7000 := by
  obtain ⟨e, r, t, hhandles, -, hresult⟩ := tickState_handled
  obtain ⟨-, hsaved, -, hrip, -⟩ := system_call_exact syscallBlocks_loaded syscallBlocks_int80
    countsAndServes_keeps countsAndServes_caller countsAndServes_serves dataIn_ticks
    countsAndServes_advances 1 (by decide) (tickState_apart (by decide)) tickState_call hhandles
  exact ⟨_, t, hhandles, hresult, hsaved .rbx (by decide), hrip⟩

end Mcsos.Arch
