import Mcsos.Arch.Isr
import Mcsos.Core.Console

/-!
# Traps

Model of `kernel/core/pic.c`, `kernel/core/pit.c` and `kernel/core/trap.c`.  Every exception and
every interrupt is reported on the console, whose locks the interrupted code may hold; it cannot
give them back before the handler has returned.  `trap_end_exact` says how `x86_64_trap_dispatch`
ends for every frame and from every state of the locks.
-/

namespace Mcsos.Core

open Io Arch

/-! ### pic.c -/

/-- `PIC1_COMMAND`, `PIC1_DATA`, `PIC2_COMMAND` and `PIC2_DATA` -/
def pic1Command : UInt16 := 0x20

def pic1Data : UInt16 := 0x21

def pic2Command : UInt16 := 0xA0

def pic2Data : UInt16 := 0xA1

/-- `PIC_EOI` -/
def picEoi : UInt8 := 0x20

/-- `outb(port, value); io_wait();` -/
def outbWait (port : UInt16) (value : UInt8) (next : Kernel Unit) : Kernel Unit :=
  .outb port value (.outb 0x80 0 next)

/-- `pic_remap` -/
def picRemap (offset1 offset2 : UInt32) : Kernel Unit :=
  .inb pic1Data fun masterMask => .inb pic2Data fun slaveMask =>
    outbWait pic1Command 0x11 <| outbWait pic2Command 0x11 <|
    outbWait pic1Data offset1.toUInt8 <| outbWait pic2Data offset2.toUInt8 <|
    outbWait pic1Data 4 <| outbWait pic2Data 2 <|
    outbWait pic1Data 0x01 <| outbWait pic2Data 0x01 <|
    .outb pic1Data masterMask <| .outb pic2Data slaveMask <| .ret ()

/-- `pic_mask_all` -/
def picMaskAll : Kernel Unit := .outb pic1Data 0xFF <| .outb pic2Data 0xFF <| .ret ()

/-- `pic_unmask_irq` -/
def picUnmaskIrq (irq : UInt8) : Kernel Unit :=
  let port := if irq < 8 then pic1Data else pic2Data
  let irq := if irq < 8 then irq else irq - 8
  .inb port fun value => .outb port (value &&& ~~~((1 : UInt32) <<< irq.toUInt32).toUInt8) (.ret ())

/-- `pic_send_eoi` -/
def picSendEoi (irq : UInt8) : Kernel Unit :=
  if irq ≥ 8 then .outb pic2Command picEoi <| .outb pic1Command picEoi <| .ret ()
  else .outb pic1Command picEoi <| .ret ()

/-! ### pit.c -/

/-- `PIT_BASE_FREQUENCY` -/
def pitBaseFrequency : UInt32 := 1193182

/-- The divisor of `pit_configure_hz`. -/
def pitDivisor (hz : UInt32) : UInt16 := (pitBaseFrequency / hz).toUInt16

/-- `pit_configure_hz`; a frequency of zero is a division by zero. -/
def pitConfigureHz (hz : UInt32) : Kernel Unit :=
  let divisor := pitDivisor hz
  .outb 0x43 0x36 <| .outb 0x40 (divisor &&& 0xFF).toUInt8 <|
    .outb 0x40 ((divisor >>> 8) &&& 0xFF).toUInt8 <| .ret ()

/-- `timer_on_irq0` -/
def timerOnIrq0 : Kernel Unit :=
  .set (fun vars => { vars with ticks := vars.ticks + 1 }) <| .get fun vars => do
    (if vars.ticks % 100 = 0 then serialWrite (some (chars "[MCSOS:TIMER] tick\n")) else .ret ())
    .outb 0x20 0x20 (.ret ())

/-! ### trap.c -/

/-- `exception_names` -/
def exceptionNames : List String :=
  ["#DE Divide Error", "#DB Debug", "NMI Interrupt", "#BP Breakpoint", "#OF Overflow",
    "#BR Bound Range Exceeded", "#UD Invalid Opcode", "#NM Device Not Available",
    "#DF Double Fault", "Coprocessor Segment Overrun",
    "#TS Invalid TSS", "#NP Segment Not Present", "#SS Stack Segment Fault",
    "#GP General Protection Fault", "#PF Page Fault", "Reserved",
    "#MF x87 Floating-Point Exception", "#AC Alignment Check", "#MC Machine Check",
    "#XM SIMD Floating-Point Exception", "#VE Virtualization Exception",
    "#CP Control Protection Exception", "Reserved", "Reserved", "Reserved", "Reserved", "Reserved",
    "Reserved", "#HV Hypervisor Injection Exception",
    "#VC VMM Communication Exception", "#SX Security Exception", "Reserved"]

/-- `trap_name` -/
def trapName (vector : UInt64) : List UInt8 :=
  chars ((exceptionNames[vector.toNat]?).getD "external-or-user-defined-interrupt")

def flag (b : Bool) : UInt64 := if b then 1 else 0

/-- `page_fault_dump` behind the read of `cr2`. -/
def pageFaultReport (cr2 errorCode : UInt64) (tf : TrapFrame) : Kernel Unit := do
  logWriteln (some (chars "#PF page fault"))
  logKeyValueHex64 (some (chars "cr2")) cr2
  logKeyValueHex64 (some (chars "error")) errorCode
  logKeyValueHex64 (some (chars "rip")) tf.rip
  logKeyValueHex64 (some (chars "present_protection")) (flag (errorCode &&& 1 ≠ 0))
  logKeyValueHex64 (some (chars "write")) (flag (errorCode &&& 2 ≠ 0))
  logKeyValueHex64 (some (chars "user")) (flag (errorCode &&& 4 ≠ 0))
  logKeyValueHex64 (some (chars "reserved")) (flag (errorCode &&& 8 ≠ 0))
  logKeyValueHex64 (some (chars "instruction_fetch")) (flag (errorCode &&& 16 ≠ 0))

/-- `page_fault_dump` -/
def pageFaultDump (errorCode : UInt64) (tf : TrapFrame) : Kernel Unit :=
  .get fun vars => pageFaultReport vars.cr2 errorCode tf

/-- `log_trap_frame` -/
def logTrapFrame (frame : TrapFrame) : Kernel Unit := do
  logKeyValueHex64 (some (chars "trap_vector")) frame.vector
  logKeyValueHex64 (some (chars "trap_error")) frame.errorCode
  logKeyValueHex64 (some (chars "trap_rip")) frame.rip
  logKeyValueHex64 (some (chars "trap_cs")) frame.cs
  logKeyValueHex64 (some (chars "trap_rflags")) frame.rflags
  logKeyValueHex64 (some (chars "trap_rax")) frame.rax
  logKeyValueHex64 (some (chars "trap_rbx")) frame.rbx
  logKeyValueHex64 (some (chars "trap_rcx")) frame.rcx
  logKeyValueHex64 (some (chars "trap_rdx")) frame.rdx

/-- What `x86_64_trap_dispatch` does behind the report. -/
def trapHandle (frame : TrapFrame) : Kernel Unit :=
  if 32 ≤ frame.vector ∧ frame.vector ≤ 47 then do
    (if frame.vector = 32 then timerOnIrq0 else .ret ())
    picSendEoi (frame.vector - 32).toUInt8
  else if frame.vector = 14 then do
    pageFaultDump frame.errorCode frame
    kernelPanicAt (some (chars "kernel/core/trap.c")) 107 (some (chars "page fault"))
      frame.errorCode
  else if frame.vector = 3 then
    logWriteln (some (chars "[M4] breakpoint handled; returning with iretq"))
  else kernelPanicAt (some (chars "kernel/core/trap.c")) 115
    (some (chars "unrecoverable CPU exception")) frame.vector

/-- `x86_64_trap_dispatch` -/
def trapDispatch : Option TrapFrame → Kernel Unit
  | none =>
    kernelPanicAt (some (chars "kernel/core/trap.c")) 88
      (some (chars "assertion failed: frame != (x86_64_trap_frame_t *)0")) 0xA55E4710
  | some frame => .set (fun vars => { vars with trapCount := vars.trapCount + 1 }) do
    logWrite (some (chars "[M4] trap dispatch: "))
    logWriteln (some (trapName frame.vector))
    logTrapFrame frame
    trapHandle frame

/-! ### The report -/

/-- What is printed of a frame. -/
def frameText (frame : TrapFrame) : List UInt8 :=
  keyText (some (chars "trap_vector")) frame.vector ++
    (keyText (some (chars "trap_error")) frame.errorCode ++
  (keyText (some (chars "trap_rip")) frame.rip ++ (keyText (some (chars "trap_cs")) frame.cs ++
  (keyText (some (chars "trap_rflags")) frame.rflags ++
    (keyText (some (chars "trap_rax")) frame.rax ++
  (keyText (some (chars "trap_rbx")) frame.rbx ++ (keyText (some (chars "trap_rcx")) frame.rcx ++
  keyText (some (chars "trap_rdx")) frame.rdx)))))))

theorem logTrapFrame_prints (frame : TrapFrame) :
    Prints Free (logTrapFrame frame) (frameText frame) := by
  refine (logKeyValueHex64_prints _ _).bind ((logKeyValueHex64_prints _ _).bind ?_)
  refine (logKeyValueHex64_prints _ _).bind ((logKeyValueHex64_prints _ _).bind ?_)
  refine (logKeyValueHex64_prints _ _).bind ((logKeyValueHex64_prints _ _).bind ?_)
  refine (logKeyValueHex64_prints _ _).bind ((logKeyValueHex64_prints _ _).bind ?_)
  exact logKeyValueHex64_prints _ _

/-- What is printed of every trap, before it is handled. -/
def trapText (frame : TrapFrame) : List UInt8 :=
  textOf (some (chars "[M4] trap dispatch: ")) ++
    (line (some (trapName frame.vector)) ++ frameText frame)

/-- The part of `x86_64_trap_dispatch` that prints it. -/
def trapReport (frame : TrapFrame) : Kernel Unit := do
  logWrite (some (chars "[M4] trap dispatch: "))
  logWriteln (some (trapName frame.vector))
  logTrapFrame frame

theorem trapReport_prints (frame : TrapFrame) : Prints Free (trapReport frame) (trapText frame) :=
  (logWrite_prints _).bind ((logWriteln_prints _).bind (logTrapFrame_prints frame))

theorem trapDispatch_eq (frame : TrapFrame) : trapDispatch (some frame) =
    .set (fun vars => { vars with trapCount := vars.trapCount + 1 })
      (trapReport frame >>= fun _ => trapHandle frame) := by
  rw [trapDispatch, trapReport, Io.bind_assoc]
  congr 2
  funext _
  rw [Io.bind_assoc]

/-! ### Interrupts of devices -/

section

variable {δ ε ι : Type} {D : Device δ ε ι} {m : Machine Lock Vars δ} {frame : TrapFrame}

/-- A program that returns with the locks and the interrupt flag as they were. -/
def ReturnsWith (D : Device δ ε ι) (p : Kernel Unit) (m : Machine Lock Vars δ) (vars : Vars) :
    Prop :=
  ∃ dev sent, p.run D m = (.returns (), { m with vars := vars, dev := dev, sent := sent })

theorem ReturnsWith.bind {p q : Kernel Unit} {vars vars' : Vars} (hp : ReturnsWith D p m vars)
    (hq : ∀ m' : Machine Lock Vars δ, m'.held = m.held → m'.vars = vars →
      ReturnsWith D q m' vars') :
    ReturnsWith D (p >>= fun _ => q) m vars' := by
  obtain ⟨dev, sent, hrun⟩ := hp
  obtain ⟨dev', sent', hrun'⟩ := hq { m with vars := vars, dev := dev, sent := sent } rfl rfl
  exact ⟨dev', sent', by rw [Io.run_bind, hrun]; exact hrun'⟩

theorem Prints.returnsWith {ok : (Lock → Bool) → Prop} {p : Kernel Unit} {text : List UInt8}
    (h : Prints ok p text) (hm : ok m.held) : ReturnsWith D p m m.vars := by
  obtain ⟨dev, sent, hrun, -⟩ := h.run D m hm
  exact ⟨dev, m.sent ++ sent.map fun c => (com1Port, c), hrun⟩

theorem timerOnIrq0_returns (hfree : Free m.held) :
    ReturnsWith D timerOnIrq0 m { m.vars with ticks := m.vars.ticks + 1 } := by
  let m' : Machine Lock Vars δ := { m with vars := { m.vars with ticks := m.vars.ticks + 1 } }
  have htick :
      ReturnsWith D
        (if m'.vars.ticks % 100 = 0 then serialWrite (some (chars "[MCSOS:TIMER] tick\n"))
      else .ret ()) m' m'.vars := by
    split
    · exact (serialWrite_prints _).returnsWith (hfree .serial)
    · exact ⟨m'.dev, m'.sent, rfl⟩
  have hlast : ∀ m'' : Machine Lock Vars δ, ReturnsWith D (.outb 0x20 0x20 (.ret ()))
      m'' m''.vars :=
    fun _ => ⟨_, _, rfl⟩
  refine htick.bind (q := .outb 0x20 0x20 (.ret ())) fun m'' _ hvars => ?_
  have houtb := hlast m''
  rwa [hvars] at houtb

theorem picSendEoi_returns (irq : UInt8) : ReturnsWith D (picSendEoi irq) m m.vars := by
  rw [picSendEoi]
  split
  · exact ⟨_, _, rfl⟩
  · exact ⟨_, _, rfl⟩

/-- The vectors from which `x86_64_trap_dispatch` returns: the breakpoint and the interrupts of
devices. -/
def Served (vector : UInt64) : Prop := vector = 3 ∨ 32 ≤ vector ∧ vector ≤ 47

/-- The counters behind a trap. -/
def afterTrap (frame : TrapFrame) (vars : Vars) : Vars :=
  { vars with
    trapCount := vars.trapCount + 1
    ticks := if frame.vector = 32 then vars.ticks + 1 else vars.ticks }

theorem trapHandle_returns (hfree : Free m.held) (hserved : Served frame.vector) :
    ReturnsWith D (trapHandle frame) m
    { m.vars with ticks := if frame.vector = 32 then m.vars.ticks + 1 else m.vars.ticks } := by
  rw [trapHandle]
  by_cases hdevice : 32 ≤ frame.vector ∧ frame.vector ≤ 47
  · rw [if_pos hdevice]
    by_cases htimer : frame.vector = 32
    · rw [if_pos htimer, if_pos htimer]
      exact (timerOnIrq0_returns hfree).bind fun m' _ hvars => hvars ▸ picSendEoi_returns _
    · rw [if_neg htimer, if_neg htimer]
      exact picSendEoi_returns (D := D) (m := m) _
  · have h3 : frame.vector = 3 := hserved.resolve_right hdevice
    have h14 : frame.vector ≠ 14 := by rw [h3]; decide
    have h32 : frame.vector ≠ 32 := by rw [h3]; decide
    rw [if_neg hdevice, if_neg h14, if_pos h3, if_neg h32]
    exact (logWriteln_prints _).returnsWith hfree

theorem trapDispatch_returns (hfree : Free m.held) (hserved : Served frame.vector) :
    ReturnsWith D (trapDispatch (some frame)) m (afterTrap frame m.vars) := by
  rw [trapDispatch_eq]
  have hreport := (trapReport_prints frame).returnsWith (D := D)
    (m := { m with vars := { m.vars with trapCount := m.vars.trapCount + 1 } }) hfree
  exact hreport.bind fun m' hheld hvars => by
    have hhandle := trapHandle_returns (D := D) (m := m') (hheld ▸ hfree) hserved
    rwa [hvars] at hhandle

/-! ### Exceptions -/

/-- A program that halts the processor. -/
def Halts (D : Device δ ε ι) (p : Kernel Unit) (m : Machine Lock Vars δ) : Prop :=
  ∃ m', p.run D m = (.halts, m') ∧ m'.enabled = false

theorem kernelPanicAt_halts (file : Option (List UInt8)) (lineNumber : UInt32)
    (reason : Option (List UInt8)) (code : UInt64) (hfree : Free m.held) :
    Halts D (kernelPanicAt file lineNumber reason code) m := by
  obtain ⟨dev, sent, hrun, -⟩ :=
    (panicReport_prints file lineNumber reason code m.vars.rflags).run D
    { m with enabled := false } hfree
  exact ⟨_, hrun, rfl⟩

theorem Halts.of_bind {p q : Kernel Unit} {vars : Vars} (hp : ReturnsWith D p m vars)
    (hq : ∀ m' : Machine Lock Vars δ, m'.held = m.held → Halts D q m') :
    Halts D (p >>= fun _ => q) m := by
  obtain ⟨dev, sent, hrun⟩ := hp
  obtain ⟨m', hrun', hm'⟩ := hq { m with vars := vars, dev := dev, sent := sent } rfl
  exact ⟨m', by rw [Io.run_bind, hrun]; exact hrun', hm'⟩

/-- What `page_fault_dump` prints. -/
def pageFaultText (cr2 errorCode : UInt64) (tf : TrapFrame) : List UInt8 :=
  line (some (chars "#PF page fault")) ++ (keyText (some (chars "cr2")) cr2 ++
  (keyText (some (chars "error")) errorCode ++ (keyText (some (chars "rip")) tf.rip ++
  (keyText (some (chars "present_protection")) (flag (errorCode &&& 1 ≠ 0)) ++
  (keyText (some (chars "write")) (flag (errorCode &&& 2 ≠ 0)) ++
  (keyText (some (chars "user")) (flag (errorCode &&& 4 ≠ 0)) ++
  (keyText (some (chars "reserved")) (flag (errorCode &&& 8 ≠ 0)) ++
  keyText (some (chars "instruction_fetch")) (flag (errorCode &&& 16 ≠ 0)))))))))

theorem pageFaultReport_prints (cr2 errorCode : UInt64) (tf : TrapFrame) :
    Prints Free (pageFaultReport cr2 errorCode tf) (pageFaultText cr2 errorCode tf) := by
  refine (logWriteln_prints _).bind ((logKeyValueHex64_prints _ _).bind ?_)
  refine (logKeyValueHex64_prints _ _).bind ((logKeyValueHex64_prints _ _).bind ?_)
  refine (logKeyValueHex64_prints _ _).bind ((logKeyValueHex64_prints _ _).bind ?_)
  exact (logKeyValueHex64_prints _ _).bind
    ((logKeyValueHex64_prints _ _).bind (logKeyValueHex64_prints _ _))

theorem trapHandle_halts (hfree : Free m.held) (hserved : ¬ Served frame.vector) :
    Halts D (trapHandle frame) m := by
  rw [Served, not_or] at hserved
  rw [trapHandle, if_neg hserved.2, if_neg hserved.1]
  split
  · have hdump : ReturnsWith D (pageFaultDump frame.errorCode frame) m m.vars :=
      (pageFaultReport_prints m.vars.cr2 frame.errorCode frame).returnsWith hfree
    exact .of_bind hdump fun m' hheld => kernelPanicAt_halts _ _ _ _ (hheld ▸ hfree)
  · exact kernelPanicAt_halts _ _ _ _ hfree

theorem trapDispatch_halts (hfree : Free m.held) (hserved : ¬ Served frame.vector) :
    Halts D (trapDispatch (some frame)) m := by
  rw [trapDispatch_eq]
  have hreport := (trapReport_prints frame).returnsWith (D := D)
    (m := { m with vars := { m.vars with trapCount := m.vars.trapCount + 1 } }) hfree
  exact Halts.of_bind hreport fun m' hheld => trapHandle_halts (hheld ▸ hfree) hserved

theorem trapDispatch_excludes (frame : TrapFrame) : Excludes (trapDispatch (some frame)) := by
  intro δ ε ι D m hm
  rw [trapDispatch_eq]
  exact Excludes.bind (Excludes.bind (logWrite_excludes _) _) _ D
    { m with vars := { m.vars with trapCount := m.vars.trapCount + 1 } } hm

/-- **How a trap ends.**  `x86_64_trap_dispatch` returns just from breakpoints and interrupts of
devices that come while no lock of the console is taken, with the counters advanced and the
interrupt flag as it was; from any other exception it halts the processor, if no lock is taken; and
if one is, it spins for ever, whatever the vector. -/
theorem trap_end_exact (D : Device δ ε ι) (frame : TrapFrame) (m : Machine Lock Vars δ) :
    ((∃ m', (trapDispatch (some frame)).run D m = (.returns (), m') ∧ m'.held = m.held ∧
      m'.enabled = m.enabled ∧
        m'.vars = afterTrap frame m.vars) ↔ (∀ l, m.held l = false) ∧ Served frame.vector) ∧
      ((∃ m', (trapDispatch (some frame)).run D m = (.halts, m') ∧ m'.enabled = false) ↔
        (∀ l, m.held l = false) ∧ ¬ Served frame.vector) ∧
      ((∃ l m', (trapDispatch (some frame)).run D m = (.spins l, m')) ↔ ∃ l, m.held l = true) := by
  by_cases htaken : ∃ l, m.held l = true
  · obtain ⟨l, m', hrun, -⟩ := trapDispatch_excludes frame D m htaken
    have hnot : ¬ ∀ l, m.held l = false := fun h => by
      obtain ⟨l, hl⟩ := htaken
      rw [h l] at hl
      cases hl
    rw [hrun]
    refine ⟨⟨?_, fun h => absurd h.1 hnot⟩, ⟨?_, fun h => absurd h.1 hnot⟩, fun _ => htaken,
      fun _ => ⟨l, m', rfl⟩⟩
    · rintro ⟨m'', h, -⟩
      cases h
    · rintro ⟨m'', h, -⟩
      cases h
  · have hfree : Free m.held := fun l => (Bool.not_eq_true _).mp fun hl => htaken ⟨l, hl⟩
    by_cases hserved : Served frame.vector
    · obtain ⟨dev, sent, hrun⟩ := trapDispatch_returns (D := D) hfree hserved
      rw [hrun]
      refine ⟨⟨fun _ => ⟨hfree, hserved⟩, fun _ => ⟨_, rfl, rfl, rfl, rfl⟩⟩,
        ⟨?_, fun h => absurd hserved h.2⟩, ?_, fun h => absurd h htaken⟩
      · rintro ⟨m'', h, -⟩
        cases h
      · rintro ⟨l, m'', h⟩
        cases h
    · obtain ⟨m', hrun, hm'⟩ := trapDispatch_halts (D := D) hfree hserved
      rw [hrun]
      refine ⟨⟨?_, fun h => absurd h.2 hserved⟩,
        ⟨fun _ => ⟨hfree, hserved⟩, fun _ => ⟨m', rfl, hm'⟩⟩,
        ?_, fun h => absurd h htaken⟩
      · rintro ⟨m'', h, -⟩
        cases h
      · rintro ⟨l, m'', h⟩
        cases h

end

end Mcsos.Core
