import Mcsos.Core.Trap
import Mcsos.Lib.Pic8259

/-!
# The kernel under interrupts

Kernel code, device interrupts and their handlers together.  Interrupts come through the two
controllers of the board, at any instruction of code that has them enabled.

The handlers print, and printing takes locks.  A processor that accepts an interrupt while the
interrupted code has one of them spins for ever with interrupts disabled; `console_deadlock_exact`
says that this is the only way in which the kernel can come to spin.  Without this accident every
interrupt is ended on the controllers, so that the next one can come (`handler_serves`).
-/

namespace Mcsos.Core

open Io Arch Pic8259

/-- The handler of an interrupt of a device. -/
def handler (frame : TrapFrame) : Kernel Unit := trapDispatch (some frame)

/-! ### Locks -/

theorem free_false : Free fun _ => false := fun _ => rfl

/-- Code that prints, and may end in a panic. -/
structure ConsoleCode (p : Kernel Unit) : Prop where
  brackets : ∀ held, Free held → p.Brackets held held
  keeps : p.Keeps
  guards :
    ∀ {δ ε ι γ : Type} {D : Device δ ε ι} {V : D.View γ} {safe : γ → Prop} {on : Bool} {c : γ},
    (∀ v, V.out com1Port v c = c) → (on = true → safe c) →
    p.Guards V safe (fun on' c' => on' = on ∧ c' = c) on c
  runsOn : ∀ {f : Unit → Kernel Unit}, (f ()).RunsOn → (p >>= f).RunsOn

theorem Prints.consoleCode {ok : (Lock → Bool) → Prop} {p : Kernel Unit} {text : List UInt8}
    (h : Prints ok p text) (hok : ∀ held, Free held → ok held) : ConsoleCode p :=
  ⟨fun held hheld => h.brackets held (hok held hheld), h.within.keeps,
    fun hout hsafe => h.within.guards (fun _ v hport => hport ▸ hout v) hsafe,
    fun hf => h.within.runsOn fun _ => hf⟩

theorem ConsoleCode.bind {p q : Kernel Unit} (hp : ConsoleCode p) (hq : ConsoleCode q) :
    ConsoleCode (p >>= fun _ => q) :=
  ⟨fun held hheld => (hp.brackets held hheld).bind fun _ => hq.brackets held hheld,
    hp.keeps.bind fun _ => hq.keeps,
    fun hout hsafe => (hp.guards hout hsafe).bind fun _ on c h => by
      rw [h.1, h.2]
      exact hq.guards hout hsafe,
    fun hf => by
      rw [Io.bind_assoc]
      exact hp.runsOn (hq.runsOn hf)⟩

theorem logWrite_consoleCode (s : Option (List UInt8)) : ConsoleCode (logWrite s) :=
  (logWrite_prints s).consoleCode fun _ h => h

theorem logWriteln_consoleCode (s : Option (List UInt8)) : ConsoleCode (logWriteln s) :=
  (logWriteln_prints s).consoleCode fun _ h => h

theorem kernelPanicAt_consoleCode (file : Option (List UInt8)) (lineNumber : UInt32)
    (reason : Option (List UInt8)) (code : UInt64) :
    ConsoleCode (kernelPanicAt file lineNumber reason code) := by
  have hreport := panicReport_prints file lineNumber reason code
  exact ⟨fun held hheld vars => (hreport vars.rflags).brackets held hheld, fun vars =>
    (hreport vars.rflags).keeps, fun hout hsafe =>
    ⟨hsafe, fun vars => ⟨hsafe, (hreport vars.rflags).guards hout⟩⟩,
    fun _ vars => (hreport vars.rflags).staysOff.bind _⟩

theorem ConsoleCode.ite {cond : Prop} [Decidable cond] {p q : Kernel Unit} (hp : ConsoleCode p)
    (hq : ConsoleCode q) :
    ConsoleCode (if cond then p else q) := by
  split
  · exact hp
  · exact hq

theorem ret_consoleCode : ConsoleCode (.ret ()) := (@prints_ret Free).consoleCode fun _ h => h

theorem timerOnIrq0_brackets {held : Lock → Bool} (hheld : Free held) :
    timerOnIrq0.Brackets held held := by
  intro vars
  have htick : Brackets held held
      (if vars.ticks % 100 = 0 then serialWrite (some (chars "[MCSOS:TIMER] tick\n"))
        else .ret ()) := by
    split
    · exact (serialWrite_prints _).brackets held (hheld .serial)
    · rfl
  exact htick.bind fun _ => rfl

theorem trapHandle_brackets {held : Lock → Bool} (frame : TrapFrame) (hheld : Free held) :
    (trapHandle frame).Brackets held held := by
  rw [trapHandle]
  split
  · have htimer : (if frame.vector = 32 then timerOnIrq0 else .ret ()).Brackets held held := by
      split
      · exact timerOnIrq0_brackets hheld
      · rfl
    refine htimer.bind fun _ => ?_
    rw [picSendEoi]
    split <;> rfl
  · split
    · have hdump : (pageFaultDump frame.errorCode frame).Brackets held held :=
        fun vars => (pageFaultReport_prints vars.cr2 frame.errorCode frame).brackets held hheld
      exact hdump.bind fun _ => (kernelPanicAt_consoleCode _ _ _ _).brackets held hheld
    · split
      · exact (logWriteln_prints _).brackets held hheld
      · exact (kernelPanicAt_consoleCode _ _ _ _).brackets held hheld

theorem handler_exclusive {δ ε ι : Type} (D : Device δ ε ι) (frame : TrapFrame) :
    Config.Exclusive D (handler frame) := by
  refine ⟨?_, fun m hm => ?_⟩
  · rw [handler, trapDispatch_eq]
    exact ((trapReport_prints frame).brackets _ free_false).bind fun _ =>
      trapHandle_brackets frame free_false
  · obtain ⟨l, m', hrun, -⟩ := trapDispatch_excludes frame D m hm
    exact ⟨l, m', hrun⟩

/-- **When the console hangs the kernel.**  Let kernel code run that takes the locks of the console
in their places and gives them back.  However devices behave and interrupts come, the processor
never spins, neither in this code nor in a handler, just if no interrupt is accepted while a lock is
taken. -/
theorem console_deadlock_exact {δ ε : Type} (D : Device δ ε TrapFrame) (code : Kernel Unit)
    (hcode : code.Brackets (fun _ => false) fun _ => false) (m : Machine Lock Vars δ)
    (hfree : ∀ l, m.held l = false) (events : List (Event ε)) :
    AllStates (Config.next D handler) (fun c => ¬ c.Spins) events (.running code m []) ↔
      AllSteps (Config.next D handler) (Config.AcceptsFree D) events (.running code m []) := by
  refine Config.spins_never_iff (handler_exclusive D) ?_ events
  obtain hheld : m.held = fun _ => false := funext hfree
  rw [Config.Bracketed, hheld]
  exact hcode

/-- A console that is always ready, and a timer whose interrupt is always pending. -/
def readyTimer (regs : TrapFrame) : Device Unit Unit TrapFrame where
  outb _ _ d := d
  inb _ d := (0x20, d)
  env _ d := d
  ack d := some ({ regs with vector := 32 }, d)

/-- All registers are zero. -/
def zeroFrame : TrapFrame := ⟨0, 0, 0, 0, 0, 0, 0, 0, 0, 0, 0, 0, 0, 0, 0, 0, 0, 0, 0, 0⟩

/-- Nothing has happened yet. -/
def atReset {δ : Type} (dev : δ) : Machine Lock Vars δ :=
  ⟨fun _ => false, ⟨0, 0, 0, 0⟩, dev, false, []⟩

/-- The timer interrupts a string that is being printed. -/
theorem console_deadlock_exact_timer :
    ¬ AllStates (Config.next (readyTimer zeroFrame) handler) (fun c => ¬ c.Spins)
    [.step, .step, .intr]
    (.running (.setIf true (logWrite (some (chars "MCSOS")))) (atReset ()) []) := by
  refine (console_deadlock_exact (readyTimer zeroFrame) _ ?_ (atReset ()) (fun _ => rfl) _).not.mpr
    fun h => ?_
  · exact (logWrite_prints _).brackets _ free_false
  · have hfree := h.2.2.1 rfl rfl .log
    cases hfree

/-! ### The board -/

/-- The interrupt controllers with the other devices; `regs` are the registers of the code that an
interrupt finds. -/
structure Board (δ : Type) where
  pics : Pair
  regs : TrapFrame
  rest : δ

/-- Something happens to the interrupt inputs, to the registers, or to other devices. -/
inductive BoardEvent (ε : Type) where
  | line (e : Line)
  | regs (f : TrapFrame)
  | rest (e : ε)

/-- The frame of an interrupt with the vector `v`. -/
def interruptFrame (regs : TrapFrame) (v : UInt8) : TrapFrame :=
  { regs with
    vector := v.toUInt64
    errorCode := 0 }

@[simp] theorem interruptFrame_vector (regs : TrapFrame) (v : UInt8) :
    (interruptFrame regs v).vector = v.toUInt64 := rfl

section

variable {δ ε ι : Type} {D : Device δ ε ι}

/-- The devices of the board. -/
def board (D : Device δ ε ι) : Device (Board δ) (BoardEvent ε) TrapFrame where
  outb port v b :=
    match b.pics.outb port v with
    | some pics => { b with pics := pics }
    | none => { b with rest := D.outb port v b.rest }
  inb port b :=
    match b.pics.inb port with
    | some v => (v, b)
    | none => ((D.inb port b.rest).1, { b with rest := (D.inb port b.rest).2 })
  env e b :=
    match e with
    | .line e => { b with pics := b.pics.env e }
    | .regs f => { b with regs := f }
    | .rest e => { b with rest := D.env e b.rest }
  ack b := b.pics.ack.map fun r => (interruptFrame b.regs r.1, { b with pics := r.2 })

/-- The controllers without their requests. -/
def picView (D : Device δ ε ι) : (board D).View Pair where
  view b := b.pics.control
  out port v c := (c.out port v).control
  reads port c v :=
    (port = pic1Data → v = c.master.readData) ∧ (port = pic2Data → v = c.slave.readData)
  view_outb port v b := by
    rw [Pair.control_out, Pair.out]
    simp only [board]
    cases b.pics.outb port v <;> rfl
  reads_inb port b := by
    refine ⟨?_, ?_⟩
    · rintro rfl
      rfl
    · rintro rfl
      rfl
  view_inb port b := by
    simp only [board]
    cases b.pics.inb port <;> rfl
  view_env e b := by
    cases e with
    | line e => exact Pair.control_env e b.pics
    | regs f => rfl
    | rest e => rfl

theorem not_port_com1 : ¬ Port com1Port := by
  unfold Port com1Port
  decide

/-- Printing does not show on the controllers. -/
theorem out_com1 (v : UInt8) (p : Pair) : (picView D).out com1Port v p.control = p.control := by
  change (p.control.out com1Port v).control = p.control
  rw [Pair.out_of_not_port not_port_com1]
  rfl

theorem Prints.guards {ok : (Lock → Bool) → Prop} {p : Kernel Unit} {text : List UInt8}
    (h : Prints ok p text) {safe : Pair → Prop} {on : Bool} {c : Pair}
    (hsafe : on = true → safe c.control) :
    p.Guards (picView D) safe (fun on' c' => on' = on ∧ c' = c.control) on c.control :=
  h.within.guards (fun _ v hport => hport ▸ out_com1 v c) hsafe

/-! ### The end of an interrupt -/

/-- The controllers behind `pic_send_eoi`. -/
def sentEoi (irq : UInt8) (p : Pair) : Pair := if irq ≥ 8 then p.eoiBoth else p.eoi

theorem out_eoi (p : Pair) : (picView D).out pic1Command picEoi p.control = p.eoi.control :=
  Pair.control_out pic1Command picEoi p

theorem out_eoi_slave (p : Pair) : (picView D).out pic2Command picEoi p.control =
    Pair.control { p with slave := p.slave.writeCommand picEoi } :=
  Pair.control_out pic2Command picEoi p

theorem picSendEoi_guards (irq : UInt8) (p : Pair) {safe : Pair → Prop} :
    (picSendEoi irq).Guards (picView D) safe (fun _ c => c = (sentEoi irq p).control) false
      p.control := by
  rw [picSendEoi, sentEoi]
  split
  · refine ⟨fun h => absurd h Bool.false_ne_true, fun h => absurd h Bool.false_ne_true, ?_⟩
    rw [out_eoi_slave, out_eoi]
    rfl
  · refine ⟨fun h => absurd h Bool.false_ne_true, ?_⟩
    rw [out_eoi]
    rfl

theorem timerOnIrq0_guards (p : Pair) {safe : Pair → Prop} :
    timerOnIrq0.Guards (picView D) safe (fun on c => on = false ∧ c = p.eoi.control) false
      p.control := by
  refine ⟨nofun, nofun, fun vars => ?_⟩
  have htick : Guards (picView D) safe (fun on c => on = false ∧ c = p.control)
      (if vars.ticks % 100 = 0 then serialWrite (some (chars "[MCSOS:TIMER] tick\n")) else .ret ())
        false p.control := by
    split
    · exact (serialWrite_prints _).guards nofun
    · exact ⟨rfl, rfl⟩
  refine htick.bind fun _ on c h => ?_
  rw [h.1, h.2]
  exact ⟨nofun, rfl, out_eoi p⟩

/-- The controllers behind the handler of an interrupt. -/
def ended (frame : TrapFrame) (p : Pair) : Pair :=
  sentEoi (frame.vector - 32).toUInt8 (if frame.vector = 32 then p.eoi else p)

theorem handler_guards {frame : TrapFrame}
    (hvector : 32 ≤ frame.vector ∧ frame.vector ≤ 47) (p : Pair)
    {safe : Pair → Prop} :
    (handler frame).Guards (picView D) safe (fun _ c => c = (ended frame p).control) false
      p.control := by
  rw [handler, trapDispatch_eq]
  refine ⟨nofun, ((trapReport_prints frame).guards nofun).bind fun _ on c h => ?_⟩
  rw [h.1, h.2, trapHandle, if_pos hvector, ended]
  by_cases htimer : frame.vector = 32
  · rw [if_pos htimer, if_pos htimer]
    refine (timerOnIrq0_guards p).bind fun _ on c h => ?_
    rw [h.1, h.2]
    exact picSendEoi_guards _ p.eoi
  · rw [if_neg htimer, if_neg htimer]
    exact picSendEoi_guards _ p

/-- The controllers are programmed for the vectors of the kernel, with these masks, and nothing is
in service. -/
def Programmed (imr imrSlave : Fin 8 → Bool) (c : Pair) : Prop := c.Idle 0x20 0x28 imr imrSlave

/-- The interrupts that come with these masks: those of inputs that are not masked, and spurious
ones. -/
def Genuine (imr imrSlave : Fin 8 → Bool) (frame : TrapFrame) : Prop :=
  (∃ i : Fin 8, frame.vector = 32 + UInt64.ofNat i ∧ (imr i = false ∨ i = spurious)) ∨
    ∃ i : Fin 8, frame.vector = 40 + UInt64.ofNat i ∧ imr cascade = false ∧
    (imrSlave i = false ∨ i = spurious)

theorem master_vector : ∀ i : Fin 8, (0x20 ||| UInt8.ofNat i).toUInt64 = 32 + UInt64.ofNat i ∧
    (32 : UInt64) ≤ (0x20 ||| UInt8.ofNat i).toUInt64 ∧ (0x20 ||| UInt8.ofNat i).toUInt64 ≤
    (47 : UInt64) ∧
      ¬ ((0x20 ||| UInt8.ofNat i).toUInt64 - 32).toUInt8 ≥ 8 := by
  decide

theorem slave_vector : ∀ i : Fin 8, (0x28 ||| UInt8.ofNat i).toUInt64 = 40 + UInt64.ofNat i ∧
    (32 : UInt64) ≤ (0x28 ||| UInt8.ofNat i).toUInt64 ∧ (0x28 ||| UInt8.ofNat i).toUInt64 ≤
    (47 : UInt64) ∧
      ((0x28 ||| UInt8.ofNat i).toUInt64 - 32).toUInt8 ≥ 8 ∧
      (0x28 ||| UInt8.ofNat i).toUInt64 ≠ 32 := by
  decide

/-- The handler ends the interrupt that was acknowledged, though it ends that of the timer twice. -/
theorem ended_ack {imr imrSlave : Fin 8 → Bool} {p p' : Pair} {v : UInt8}
    (hidle : p.Idle 0x20 0x28 imr imrSlave) (hack : p.ack = some (v, p')) (regs : TrapFrame) :
    Genuine imr imrSlave (interruptFrame regs v) ∧
      (32 ≤ (interruptFrame regs v).vector ∧ (interruptFrame regs v).vector ≤ 47) ∧
      (ended (interruptFrame regs v) p').control = p.control := by
  rcases hidle.ack_eoi hack with ⟨i, rfl, hi, hcontrol⟩ | ⟨i, rfl, h2, hi, hcontrol⟩
  · obtain ⟨hvector, hlow, hhigh, hmaster⟩ := master_vector i
    refine ⟨.inl ⟨i, hvector, hi⟩, ⟨hlow, hhigh⟩, ?_⟩
    rw [ended, sentEoi, interruptFrame_vector, if_neg hmaster]
    split
    · have hidle' : p'.eoi.Idle 0x20 0x28 imr imrSlave := by
        rw [← Pair.idle_control, hcontrol, Pair.idle_control]
        exact hidle
      rw [hidle'.control_eoi, hcontrol]
    · exact hcontrol
  · obtain ⟨hvector, hlow, hhigh, hslave, hne⟩ := slave_vector i
    refine ⟨.inr ⟨i, hvector, h2, hi⟩, ⟨hlow, hhigh⟩, ?_⟩
    rw [ended, sentEoi, interruptFrame_vector, if_pos hslave, if_neg hne]
    exact hcontrol

/-- Interrupts are served. -/
theorem handler_serves (imr imrSlave : Fin 8 → Bool) :
    Config.Serves (ℓ := Lock) (picView D) (Programmed imr imrSlave)
    handler (Genuine imr imrSlave) afterTrap := by
  intro m i dev hfree hsafe hack
  simp only [board, Option.map_eq_some_iff] at hack
  obtain ⟨⟨v, pics⟩, hpics, heq⟩ := hack
  injection heq with hi hdev
  subst hi hdev
  have hidle : m.dev.pics.Idle 0x20 0x28 imr imrSlave := Pair.idle_control.mp hsafe
  obtain ⟨hgenuine, hvector, hended⟩ := ended_ack hidle hpics m.dev.regs
  obtain ⟨dev, sent, hrun⟩ := trapDispatch_returns (D := board D)
    (m := { m with dev := { m.dev with pics := pics }, enabled := false }) hfree (.inr hvector)
  refine ⟨hgenuine, _, hrun, rfl, rfl, ?_⟩
  have hguards : (handler (interruptFrame m.dev.regs v)).Guards (picView D) (fun _ => True)
      (fun _ c => c = (ended (interruptFrame m.dev.regs v) pics).control) false pics.control :=
    handler_guards hvector pics
  have hview :=
    hguards.run (m := { m with dev := { m.dev with pics := pics }, enabled := false }) hrun
  exact hview.trans hended

end

end Mcsos.Core
