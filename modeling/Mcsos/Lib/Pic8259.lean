import Mathlib.Data.Fin.Basic
import Mathlib.Data.List.FinRange
import Mathlib.Logic.Function.Basic

/-!
# A pair of interrupt controllers

Two chips of the kind 8259A as they stand in a PC, the second one behind input 2 of the first.
Modelled are the initialisation by four command words, the masks, the requests in fixed priority
with fully nested in-service bits, the acknowledge cycle with its spurious vectors, and the commands
for the end of an interrupt.  Rotating priorities, special masks and polling are left out.

An end of interrupt that is not specific clears the in-service bit of the highest priority,
whichever interrupt it was meant for.  What keeps this right is that one interrupt is served at a
time: `Idle.ack_eoi`.
-/

namespace Mcsos.Pic8259

/-- The command word that the chip expects next on its data port. -/
inductive Phase where
  | ready
  | icw2
  | icw3
  | icw4
  deriving DecidableEq, Repr

/-- One chip. -/
structure Chip where
  irr : Fin 8 → Bool
  isr : Fin 8 → Bool
  imr : Fin 8 → Bool
  base : UInt8
  phase : Phase
  single : Bool
  needsIcw4 : Bool
  autoEoi : Bool
  readIsr : Bool

/-- The bits of a byte. -/
def bits (v : UInt8) : Fin 8 → Bool := fun i => v.toNat.testBit i

/-- The byte of eight bits. -/
def byte (b : Fin 8 → Bool) : UInt8 :=
  (List.finRange 8).foldl (fun v i => if b i then v ||| 1 <<< UInt8.ofNat i else v) 0

theorem bits_and (v w : UInt8) (i : Fin 8) : bits (v &&& w) i = (bits v i && bits w i) := by
  simp only [bits, UInt8.toNat_and, Nat.testBit_and]

theorem bits_or (v w : UInt8) (i : Fin 8) : bits (v ||| w) i = (bits v i || bits w i) := by
  simp only [bits, UInt8.toNat_or, Nat.testBit_or]

theorem bits_shift : ∀ i j : Fin 8, bits (1 <<< UInt8.ofNat j) i = decide (i = j) := by decide

theorem bits_foldl (b : Fin 8 → Bool) (l : List (Fin 8)) (v : UInt8) (i : Fin 8) :
    bits (l.foldl (fun v i => if b i then v ||| 1 <<< UInt8.ofNat i else v) v) i =
      (bits v i || (decide (i ∈ l) && b i)) := by
  induction l generalizing v with
  | nil => simp
  | cons j l ih =>
      rw [List.foldl_cons, ih]
      by_cases hij : i = j
      · subst hij
        by_cases hb : b i = true
        · rw [if_pos hb, bits_or, bits_shift]
          simp [hb]
        · rw [if_neg hb]
          simp [hb]
      · by_cases hb : b j = true
        · rw [if_pos hb, bits_or, bits_shift]
          simp [hij]
        · rw [if_neg hb]
          simp [hij]

theorem bits_byte (b : Fin 8 → Bool) : bits (byte b) = b := by
  funext i
  have hzero : bits 0 i = false := by
    revert i
    decide
  rw [byte, bits_foldl, hzero, Bool.false_or, decide_eq_true (List.mem_finRange i), Bool.true_and]

theorem bits_ones : bits 0xFF = fun _ => true := by
  funext i
  revert i
  decide

/-- Clears the bit of one input. -/
theorem bits_clear (v : UInt8) (i : Fin 8) :
    bits (v &&& ~~~((1 : UInt32) <<< (UInt8.ofNat i).toUInt32).toUInt8) =
      Function.update (bits v) i false := by
  have hclear : ∀ i j : Fin 8, bits (~~~((1 : UInt32) <<< (UInt8.ofNat i).toUInt32).toUInt8) j =
      decide (j ≠ i) := by
    decide
  funext j
  rw [bits_and, hclear]
  by_cases hij : j = i
  · subst hij
    simp
  · rw [Function.update_of_ne hij]
    simp [hij]

/-- The set bit of the highest priority. -/
def highest (b : Fin 8 → Bool) : Option (Fin 8) := (List.finRange 8).find? fun i => b i

def clearHighest (b : Fin 8 → Bool) : Fin 8 → Bool :=
  match highest b with
  | none => b
  | some i => Function.update b i false

namespace Chip

/-- A write to the command port. -/
def writeCommand (v : UInt8) (c : Chip) : Chip :=
  if bits v 4 then
    { c with
      irr := fun _ => false
      isr := fun _ => false
      imr := fun _ => false
      phase := .icw2
      single := bits v 1
      needsIcw4 := bits v 0
      autoEoi := false
      readIsr := false }
  else if bits v 3 then
    if bits v 1 then { c with readIsr := bits v 0 } else c
  else if v >>> 5 = 1 then { c with isr := clearHighest c.isr }
  else if v >>> 5 = 3 then { c with isr := Function.update c.isr (Fin.ofNat 8 v.toNat) false }
  else c

/-- The phase behind the third command word. -/
def afterIcw3 (c : Chip) : Phase := if c.needsIcw4 then .icw4 else .ready

/-- A write to the data port. -/
def writeData (v : UInt8) (c : Chip) : Chip :=
  match c.phase with
  | .ready => { c with imr := bits v }
  | .icw2 => { c with base := v &&& 0xF8, phase := if c.single then c.afterIcw3 else .icw3 }
  | .icw3 => { c with phase := c.afterIcw3 }
  | .icw4 => { c with autoEoi := bits v 1, phase := .ready }

def readCommand (c : Chip) : UInt8 := byte (if c.readIsr then c.isr else c.irr)

def readData (c : Chip) : UInt8 := byte c.imr

/-- The request that the chip passes on: the highest one that is not masked, if nothing of its
priority or above is in service. -/
def request (c : Chip) : Option (Fin 8) :=
  (highest fun i => c.irr i && !c.imr i).filter fun i => (List.finRange 8).all fun j =>
    !(decide (j ≤ i) && c.isr j)

/-- The request `i` is acknowledged. -/
def accept (i : Fin 8) (c : Chip) : Chip :=
  { c with
    irr := Function.update c.irr i false
    isr := if c.autoEoi then c.isr else Function.update c.isr i true }

def vector (i : Fin 8) (c : Chip) : UInt8 := c.base ||| UInt8.ofNat i

end Chip

/-- The pair.  The processor may have seen a request, and the first chip may have latched one of the
second, that is gone when it is acknowledged. -/
structure Pair where
  master : Chip
  slave : Chip
  seen : Bool
  latched : Bool

/-- What happens at the inputs. -/
inductive Line where
  | raise (i : Fin 8)
  | lower (i : Fin 8)
  | raiseSlave (i : Fin 8)
  | lowerSlave (i : Fin 8)
  | latch
  | sample
  deriving DecidableEq, Repr

/-- The input of the first chip that the timer is at: the one of the highest priority. -/
def timer : Fin 8 := 0

/-- The input of the first chip that the second one is behind. -/
def cascade : Fin 8 := 2

/-- The input whose vector stands for a request that is gone. -/
def spurious : Fin 8 := 7

namespace Pair

/-- The first chip with the request of the second one. -/
def cascaded (p : Pair) : Chip :=
  { p.master with
    irr := Function.update p.master.irr cascade (p.slave.request.isSome || p.latched) }

def env (e : Line) (p : Pair) : Pair :=
  match e with
  | .raise i => { p with master := { p.master with irr := Function.update p.master.irr i true } }
  | .lower i => { p with master := { p.master with irr := Function.update p.master.irr i false } }
  | .raiseSlave i => { p with slave := { p.slave with irr := Function.update p.slave.irr i true } }
  | .lowerSlave i => { p with slave := { p.slave with irr := Function.update p.slave.irr i false } }
  | .latch => { p with latched := p.slave.request.isSome }
  | .sample => { p with seen := p.cascaded.request.isSome }

/-- The acknowledge cycle, with the vector. -/
def ack (p : Pair) : Option (UInt8 × Pair) :=
  if p.seen then
    match p.cascaded.request with
    | none => some (p.master.vector spurious, { p with seen := false })
    | some i =>
      let master := p.master.accept i
      if i = cascade then
        match p.slave.request with
        | none =>
            some (p.slave.vector spurious,
            { p with master := master, seen := false, latched := false })
        | some j =>
          some (p.slave.vector j,
            { p with master := master, slave := p.slave.accept j, seen := false, latched := false })
      else some (p.master.vector i, { p with master := master, seen := false })
  else none

/-- The command and data ports of a PC. -/
def outb (port : UInt16) (v : UInt8) (p : Pair) : Option Pair :=
  if port = 0x20 then some { p with master := p.master.writeCommand v }
  else if port = 0x21 then some { p with master := p.master.writeData v }
  else if port = 0xA0 then some { p with slave := p.slave.writeCommand v }
  else if port = 0xA1 then some { p with slave := p.slave.writeData v }
  else none

def inb (port : UInt16) (p : Pair) : Option UInt8 :=
  if port = 0x20 then some p.master.readCommand
  else if port = 0x21 then some p.master.readData
  else if port = 0xA0 then some p.slave.readCommand
  else if port = 0xA1 then some p.slave.readData
  else none

end Pair

/-! ### Nothing in service -/

/-- A chip that is initialised with the base and masks given and has nothing in service. -/
structure Chip.Idle (base : UInt8) (imr : Fin 8 → Bool) (c : Chip) : Prop where
  phase : c.phase = .ready
  autoEoi : c.autoEoi = false
  base : c.base = base
  imr : c.imr = imr
  isr : c.isr = fun _ => false

theorem highest_none : highest (fun _ => false) = none := by decide

theorem clearHighest_none : clearHighest (fun _ => false) = fun _ => false := by
  rw [clearHighest, highest_none]

theorem clearHighest_single (i : Fin 8) :
    clearHighest (Function.update (fun _ => false) i true) = fun _ => false := by
  funext j
  revert i j
  decide

variable {base : UInt8} {imr : Fin 8 → Bool} {c : Chip}

/-- The end of an interrupt that is not specific. -/
def eoi : UInt8 := 0x20

theorem writeCommand_eoi (c : Chip) :
    c.writeCommand eoi = { c with isr := clearHighest c.isr } := by
  have h4 : bits eoi 4 = false := by decide
  have h3 : bits eoi 3 = false := by decide
  have h5 : eoi >>> 5 = 1 := by decide
  simp only [Chip.writeCommand, h4, h3, h5, Bool.false_eq_true, if_false, if_true]

/-- The chip without its requests. -/
def Chip.control (c : Chip) : Chip := { c with irr := fun _ => false }

/-- The pair without its requests. -/
def Pair.control (p : Pair) : Pair := ⟨p.master.control, p.slave.control, false, false⟩

theorem Chip.control_eoi (c : Chip) :
    (c.writeCommand eoi).control = { c.control with isr := clearHighest c.isr } := by
  rw [writeCommand_eoi]
  rfl

/-- Without an interrupt in service, it does nothing. -/
theorem Chip.Idle.control_eoi (h : c.Idle base imr) :
    (c.writeCommand Pic8259.eoi).control = c.control := by
  rw [Chip.control_eoi, h.isr, clearHighest_none, ← h.isr]
  rfl

/-- It ends an interrupt that is alone in service. -/
theorem Chip.Idle.control_accept_eoi (h : c.Idle base imr) (i : Fin 8) :
    ((c.accept i).writeCommand Pic8259.eoi).control = c.control := by
  have hisr : (c.accept i).isr = Function.update (fun _ => false) i true := by
    rw [Chip.accept, h.autoEoi, h.isr]
    rfl
  rw [Chip.control_eoi, hisr, clearHighest_single, ← h.isr]
  rfl

/-- With nothing in service, the chip passes on the highest request that is not masked. -/
theorem Chip.Idle.request (h : c.Idle base imr) :
    c.request = highest fun i => c.irr i && !imr i := by
  have hall : ∀ i : Fin 8,
      ((List.finRange 8).all fun j => !(decide (j ≤ i) && c.isr j)) = true := by
    intro i
    simp [h.isr]
  rw [Chip.request, h.imr]
  cases highest fun i => c.irr i && !imr i with
  | none => rfl
  | some i => exact Option.filter_some_pos (hall i)

theorem Chip.Idle.request_unmasked (h : c.Idle base imr) {i : Fin 8} (hi : c.request = some i) :
    imr i = false := by
  rw [h.request] at hi
  have hset := List.find?_some hi
  simp only [Bool.and_eq_true, Bool.not_eq_true'] at hset
  exact hset.2

/-- Both chips are initialised and have nothing in service. -/
structure Pair.Idle (base baseSlave : UInt8) (imr imrSlave : Fin 8 → Bool) (p : Pair) : Prop where
  master : p.master.Idle base imr
  slave : p.slave.Idle baseSlave imrSlave

variable {baseSlave v : UInt8} {imrSlave : Fin 8 → Bool} {p p' : Pair}

/-- What is in service does not depend on the requests. -/
theorem Pair.idle_control :
    p.control.Idle base baseSlave imr imrSlave ↔ p.Idle base baseSlave imr imrSlave :=
  ⟨fun ⟨⟨h1, h2, h3, h4, h5⟩, ⟨k1, k2, k3, k4, k5⟩⟩ => ⟨⟨h1, h2, h3, h4, h5⟩, ⟨k1, k2, k3, k4, k5⟩⟩,
    fun ⟨⟨h1, h2, h3, h4, h5⟩, ⟨k1, k2, k3, k4, k5⟩⟩ =>
    ⟨⟨h1, h2, h3, h4, h5⟩, ⟨k1, k2, k3, k4, k5⟩⟩⟩

theorem Pair.control_env (e : Line) (p : Pair) : (p.env e).control = p.control := by
  cases e <;> rfl

theorem Pair.Idle.cascaded (h : p.Idle base baseSlave imr imrSlave) : p.cascaded.Idle base imr :=
  ⟨h.master.phase, h.master.autoEoi, h.master.base, h.master.imr, h.master.isr⟩

/-- The end of interrupt is sent to the first chip, or to both. -/
def Pair.eoi (p : Pair) : Pair := { p with master := p.master.writeCommand Pic8259.eoi }

def Pair.eoiBoth (p : Pair) : Pair :=
  { p with master := p.master.writeCommand Pic8259.eoi, slave := p.slave.writeCommand Pic8259.eoi }

/-- More ends of interrupts than interrupts do no harm. -/
theorem Pair.Idle.control_eoi (h : p.Idle base baseSlave imr imrSlave) :
    p.eoi.control = p.control := by
  rw [Pair.control, Pair.control, Pair.eoi, h.master.control_eoi]

theorem Pair.control_congr {q : Pair} (hmaster : q.master.control = p.master.control)
    (hslave : q.slave.control = p.slave.control) : q.control = p.control := by
  rw [Pair.control, Pair.control, hmaster, hslave]

/-- **An acknowledged interrupt and its end.**  When nothing is in service, the vector is that of an
input that is not masked, or of a request that is gone, and it tells which chips have to be told of
the end of the interrupt.  Behind that the pair is as before but for the requests. -/
theorem Pair.Idle.ack_eoi (h : p.Idle base baseSlave imr imrSlave) (hack : p.ack = some (v, p')) :
    (∃ i : Fin 8, v = base ||| UInt8.ofNat i ∧ (imr i = false ∨ i = spurious) ∧
      p'.eoi.control = p.control) ∨ ∃ i : Fin 8, v = baseSlave ||| UInt8.ofNat i ∧
      imr cascade = false ∧
        (imrSlave i = false ∨ i = spurious) ∧ p'.eoiBoth.control = p.control := by
  rw [ack] at hack
  split at hack
  · cases hreq : p.cascaded.request with
    | none =>
        rw [hreq] at hack
        injection hack with hack
        injection hack with hv hp
        subst hv hp
        exact .inl ⟨spurious, by rw [Chip.vector, h.master.base], .inr rfl,
          control_congr h.master.control_eoi rfl⟩
    | some i =>
        have hunmasked := h.cascaded.request_unmasked hreq
        rw [hreq] at hack
        by_cases hi : i = cascade
        · subst hi
          simp only [if_true] at hack
          cases hslave : p.slave.request with
          | none =>
              rw [hslave] at hack
              injection hack with hack
              injection hack with hv hp
              subst hv hp
              exact .inr ⟨spurious, by rw [Chip.vector, h.slave.base], hunmasked, .inr rfl,
                control_congr (h.master.control_accept_eoi cascade) h.slave.control_eoi⟩
          | some j =>
              rw [hslave] at hack
              injection hack with hack
              injection hack with hv hp
              subst hv hp
              exact .inr ⟨j, by rw [Chip.vector, h.slave.base], hunmasked,
                .inl (h.slave.request_unmasked hslave),
                control_congr (h.master.control_accept_eoi cascade) (h.slave.control_accept_eoi j)⟩
        · simp only [if_neg hi] at hack
          injection hack with hack
          injection hack with hv hp
          subst hv hp
          exact .inl ⟨i, by rw [Chip.vector, h.master.base], .inl hunmasked,
            control_congr (h.master.control_accept_eoi i) rfl⟩
  · cases hack

theorem highest_timer {b : Fin 8 → Bool} (h : b timer = true) : highest b = some timer := by
  rw [timer] at h
  rw [highest, List.finRange_succ, List.find?_cons, h, timer]

/-- **A request of the highest priority** that is not masked is acknowledged, once the processor has
seen it. -/
theorem Pair.Idle.ack_raise (h : p.Idle base baseSlave imr imrSlave) (hopen : imr timer = false) :
    ∃ p', ((p.env (.raise timer)).env .sample).ack = some (base ||| 0, p') := by
  have hidle : (p.env (.raise timer)).Idle base baseSlave imr imrSlave := by
    rw [← idle_control, control_env, idle_control]
    exact h
  have hreq : (p.env (.raise timer)).cascaded.request = some timer := by
    rw [hidle.cascaded.request]
    refine highest_timer ?_
    rw [hopen]
    rfl
  refine ⟨{ (p.env (.raise timer)).env .sample with
    master := (p.env (.raise timer)).master.accept timer, seen := false }, ?_⟩
  have hseen : ((p.env (.raise timer)).env .sample).seen = true := by
    change (p.env (.raise timer)).cascaded.request.isSome = true
    rw [hreq]
    rfl
  have hcascaded : ((p.env (.raise timer)).env .sample).cascaded =
      (p.env (.raise timer)).cascaded := rfl
  rw [ack, if_pos hseen, hcascaded, hreq]
  have hvector : (p.env (.raise timer)).master.vector timer = base ||| 0 := by
    rw [Chip.vector, hidle.master.base]
    rfl
  rw [← hvector]
  rfl

/-! ### Ports -/

/-- The control part after a write to a port. -/
theorem Chip.control_writeCommand (v : UInt8) (c : Chip) :
    (c.control.writeCommand v).control = (c.writeCommand v).control := by
  simp only [Chip.writeCommand]
  split
  · rfl
  · split
    · split <;> rfl
    · split
      · rfl
      · split <;> rfl

theorem Chip.control_writeData (v : UInt8) (c : Chip) :
    (c.control.writeData v).control = (c.writeData v).control := by
  simp only [Chip.writeData, Chip.control]
  cases c.phase <;> rfl

/-- A write to a port that may not belong to the pair. -/
def Pair.out (port : UInt16) (v : UInt8) (p : Pair) : Pair := (p.outb port v).getD p

theorem Pair.control_out (port : UInt16) (v : UInt8) (p : Pair) :
    (p.control.out port v).control = (p.out port v).control := by
  simp only [Pair.out, Pair.outb]
  split
  · exact control_congr (Chip.control_writeCommand v p.master) rfl
  · split
    · exact control_congr (Chip.control_writeData v p.master) rfl
    · split
      · exact control_congr rfl (Chip.control_writeCommand v p.slave)
      · split
        · exact control_congr rfl (Chip.control_writeData v p.slave)
        · rfl

/-- A write to the data port of a chip that is initialised sets the masks. -/
theorem Chip.Idle.writeData (h : c.Idle base imr) (v : UInt8) :
    (c.writeData v).Idle base (bits v) := by
  have hwrite : c.writeData v = { c with imr := bits v } := by rw [Chip.writeData, h.phase]
  rw [hwrite]
  exact ⟨h.phase, h.autoEoi, h.base, rfl, h.isr⟩

theorem Pair.Idle.writeMaster (h : p.Idle base baseSlave imr imrSlave) (v : UInt8) :
    Pair.Idle base baseSlave (bits v) imrSlave { p with master := p.master.writeData v } :=
  ⟨h.master.writeData v, h.slave⟩

theorem Pair.Idle.writeSlave (h : p.Idle base baseSlave imr imrSlave) (v : UInt8) :
    Pair.Idle base baseSlave imr (bits v) { p with slave := p.slave.writeData v } :=
  ⟨h.master, h.slave.writeData v⟩

/-- The ports of the pair. -/
def Port (port : UInt16) : Prop := port = 0x20 ∨ port = 0x21 ∨ port = 0xA0 ∨ port = 0xA1

theorem Pair.out_of_not_port {port : UInt16} (hport : ¬ Port port) (v : UInt8) (p : Pair) :
    p.out port v = p := by
  rw [Port, not_or, not_or, not_or] at hport
  rw [Pair.out, Pair.outb, if_neg hport.1, if_neg hport.2.1, if_neg hport.2.2.1, if_neg hport.2.2.2,
    Option.getD_none]

end Mcsos.Pic8259
