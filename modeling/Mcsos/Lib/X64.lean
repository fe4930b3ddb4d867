import Mcsos.Lib.Align
import Mcsos.Lib.Words

/-!
# A part of the x86-64 processor

The general registers, the instruction pointer, the flags and the selectors of the code and the
stack segment, with a flat memory in which every address is mapped.  The instructions are those of
hand-written kernel entry code: moves, the stack, calls, jumps and the return from an interrupt.
Operands stand in the order of the assembler's source, the destination last.

An interrupt is delivered as in 64-bit mode without a change of the privilege level: the stack
pointer is rounded down to 16 bytes, and the interrupted stack segment, stack pointer, flags, code
segment and instruction pointer are pushed, and behind them the error code if the vector has one.
-/

namespace Mcsos.X64

inductive Reg where
  | rax | rbx | rcx | rdx | rsi | rdi | rbp | rsp
  | r8 | r9 | r10 | r11 | r12 | r13 | r14 | r15
  deriving DecidableEq, Repr

structure Cpu where
  reg : Reg → UInt64
  rip : UInt64
  rflags : UInt64
  cs : UInt16
  ss : UInt16
  mem : Ram

inductive Instr where
  | mov (src dst : Reg)
  /-- `movq disp(%base), %dst` -/
  | load (disp : UInt64) (base dst : Reg)
  /-- `movq %src, disp(%base)` -/
  | store (src : Reg) (disp : UInt64) (base : Reg)
  /-- `movq $imm, disp(%base)` -/
  | storeImm (imm disp : UInt64) (base : Reg)
  /-- `leaq label(%rip), %dst` -/
  | lea (label : UInt64) (dst : Reg)
  | pushImm (imm : UInt64)
  | push (src : Reg)
  | pop (dst : Reg)
  | add (imm : UInt64) (dst : Reg)
  | sub (imm : UInt64) (dst : Reg)
  | cld
  | jmp (target : UInt64)
  /-- `jmp *disp(%base)` -/
  | jmpMem (disp : UInt64) (base : Reg)
  | call (target : UInt64)
  | ret
  | iretq
  deriving DecidableEq, Repr

/-! ### The flags -/

/-- The flags that an addition or a subtraction sets: carry, parity, adjust, zero, sign and
overflow. -/
def statusFlags : UInt64 := 0x8D5

/-- The direction flag. -/
def directionFlag : UInt64 := 0x400

/-- The flag that enables interrupts. -/
def interruptFlag : UInt64 := 0x200

/-- The flags that are cleared on every delivery: trap, nested task, resume and virtual mode. -/
def deliveryFlags : UInt64 := 0x34100

def flagBit (b : Bool) (i : UInt64) : UInt64 := if b then 1 <<< i else 0

/-- An even number of bits is set in the lowest byte. -/
def evenParity (r : UInt64) : Bool :=
  let p := r ^^^ (r >>> 4)
  let p := p ^^^ (p >>> 2)
  let p := p ^^^ (p >>> 1)
  p &&& 1 = 0

/-- The flags after an operation on `a` and `b` with the result `r`. -/
def arithmeticFlags (rflags a b r : UInt64) (carry overflow : Bool) : UInt64 :=
  (rflags &&& ~~~statusFlags) |||
    (flagBit carry 0 ||| flagBit (evenParity r) 2 ||| flagBit ((a ^^^ b ^^^ r) &&& 0x10 ≠ 0) 4 |||
      flagBit (r = 0) 6 ||| flagBit (r >>> 63 = 1) 7 ||| flagBit overflow 11)

def addFlags (rflags a b : UInt64) : UInt64 :=
  arithmeticFlags rflags a b (a + b) (a + b < a) (((a ^^^ (a + b)) &&& (b ^^^ (a + b))) >>> 63 = 1)

def subFlags (rflags a b : UInt64) : UInt64 :=
  arithmeticFlags rflags a b (a - b) (a < b) (((a ^^^ b) &&& (a ^^^ (a - b))) >>> 63 = 1)

theorem flagBit_direction (b : Bool) {i : UInt64} (hi : (1 <<< i) &&& directionFlag = 0) :
    flagBit b i &&& directionFlag = 0 := by
  cases b with
  | false => exact UInt64.zero_and
  | true => exact hi

/-- Arithmetic leaves the direction flag alone. -/
theorem arithmeticFlags_direction (rflags a b r : UInt64) (carry overflow : Bool) :
    arithmeticFlags rflags a b r carry overflow &&& directionFlag = rflags &&& directionFlag := by
  have hkept : ~~~statusFlags &&& directionFlag = directionFlag := by decide
  rw [arithmeticFlags]
  simp only [or_and, UInt64.and_assoc, hkept]
  rw [flagBit_direction _ (by decide), flagBit_direction _ (by decide),
    flagBit_direction _ (by decide), flagBit_direction _ (by decide),
    flagBit_direction _ (by decide), flagBit_direction _ (by decide)]
  simp only [UInt64.or_zero]

/-! ### Instructions -/

namespace Cpu

def setReg (s : Cpu) (r : Reg) (v : UInt64) : Cpu := { s with reg := Function.update s.reg r v }

def jump (s : Cpu) (target : UInt64) : Cpu := { s with rip := target }

def push (s : Cpu) (v : UInt64) : Cpu :=
  { s with
    reg := Function.update s.reg .rsp (s.reg .rsp - 8)
    mem := s.mem.store (s.reg .rsp - 8) v }

/-- The word on top of the stack. -/
def top (s : Cpu) : UInt64 := s.mem.load (s.reg .rsp)

end Cpu

/-- The effect of an instruction; `next` is the address of the instruction behind it. -/
def exec (i : Instr) (next : UInt64) (s : Cpu) : Cpu :=
  match i with
  | .mov src dst => (s.setReg dst (s.reg src)).jump next
  | .load disp base dst => (s.setReg dst (s.mem.load (s.reg base + disp))).jump next
  | .store src disp base =>
      { s with mem := s.mem.store (s.reg base + disp) (s.reg src), rip := next }
  | .storeImm imm disp base => { s with mem := s.mem.store (s.reg base + disp) imm, rip := next }
  | .lea label dst => (s.setReg dst label).jump next
  | .pushImm imm => (s.push imm).jump next
  | .push src => (s.push (s.reg src)).jump next
  | .pop dst => ((s.setReg .rsp (s.reg .rsp + 8)).setReg dst s.top).jump next
  | .add imm dst =>
      { s.setReg dst (s.reg dst + imm) with
        rflags := addFlags s.rflags (s.reg dst) imm, rip := next }
  | .sub imm dst =>
      { s.setReg dst (s.reg dst - imm) with
        rflags := subFlags s.rflags (s.reg dst) imm, rip := next }
  | .cld => { s with rflags := s.rflags &&& ~~~directionFlag, rip := next }
  | .jmp target => s.jump target
  | .jmpMem disp base => s.jump (s.mem.load (s.reg base + disp))
  | .call target => (s.push next).jump target
  | .ret => (s.setReg .rsp (s.reg .rsp + 8)).jump s.top
  | .iretq =>
    { s with
      rip := s.top
      cs := (s.mem.load (s.reg .rsp + 8)).toUInt16
      rflags := s.mem.load (s.reg .rsp + 16)
      reg := Function.update s.reg .rsp (s.mem.load (s.reg .rsp + 24))
      ss := (s.mem.load (s.reg .rsp + 32)).toUInt16 }

/-! ### Interrupts -/

/-- What the processor takes from a gate descriptor; an interrupt gate disables interrupts. -/
structure Gate where
  offset : UInt64
  selector : UInt16
  disables : Bool
  deriving DecidableEq, Repr

/-- The flags with which the handler starts. -/
def Gate.flags (g : Gate) (rflags : UInt64) : UInt64 :=
  rflags &&& ~~~(if g.disables then deliveryFlags ||| interruptFlag else deliveryFlags)

/-- Nor does the delivery change it. -/
theorem Gate.flags_direction (g : Gate) (rflags : UInt64) :
    g.flags rflags &&& directionFlag = rflags &&& directionFlag := by
  have hkept : ~~~(if g.disables then deliveryFlags ||| interruptFlag else deliveryFlags) &&&
      directionFlag = directionFlag := by
    cases g.disables <;> rfl
  rw [Gate.flags, UInt64.and_assoc, hkept]

/-- The vectors of exceptions that push an error code. -/
def errorVectors : List ℕ := [8, 10, 11, 12, 13, 14, 17, 21, 29, 30]

/-- The processor supplies an error code exactly with the vectors that have one. -/
def SuppliesError (v : ℕ) (err : Option UInt64) : Prop := err.isSome ↔ v ∈ errorVectors

instance (v : ℕ) (err : Option UInt64) : Decidable (SuppliesError v err) :=
  inferInstanceAs (Decidable (_ ↔ _))

/-- What the processor pushes on delivery, the last word first. -/
def pushed (s : Cpu) (err : Option UInt64) : List UInt64 :=
  err.toList ++ [s.rip, s.cs.toUInt64, s.rflags, s.reg .rsp, s.ss.toUInt64]

/-- The stack pointer from which the delivery pushes. -/
def aligned (s : Cpu) : UInt64 := s.reg .rsp &&& ~~~0xF

def deliver (g : Gate) (err : Option UInt64) (s : Cpu) : Cpu :=
  { (pushed s err).foldr (fun w t => t.push w) (s.setReg .rsp (aligned s)) with
    rip := g.offset
    cs := g.selector
    rflags := g.flags s.rflags }

/-! ### Programs in memory -/

/-- What stands at an address: an instruction with the address behind it, or the first instruction
of a C function, which is run as a whole; `κ` names the C functions. -/
inductive Content (κ : Type) where
  | instr (i : Instr) (next : UInt64)
  | cfun (f : κ)

/-- A program in memory. -/
abbrev Image (κ : Type) : Type := UInt64 → Option (Content κ)

variable {κ : Type}

/-- The instructions `prog` stand in the image from `a` up to `b`. -/
def Image.At (img : Image κ) (a : UInt64) (b : UInt64) : List Instr → Prop
  | [] => a = b
  | i :: rest => ∃ next, img a = some (.instr i next) ∧ At img next b rest

theorem Image.At.append {img : Image κ} {a c : UInt64} {p q : List Instr}
    (h : img.At a c (p ++ q)) :
    ∃ b, img.At a b p ∧ img.At b c q := by
  induction p generalizing a with
  | nil => exact ⟨a, rfl, h⟩
  | cons i p ih =>
      obtain ⟨next, hi, hrest⟩ := h
      obtain ⟨b, hp, hq⟩ := ih hrest
      exact ⟨b, ⟨next, hi, hp⟩, hq⟩

/-- An image of blocks at multiples of 64, each of them a C function or a piece of code with one
address for each instruction. -/
def Image.ofBlocks (blocks : ℕ → κ ⊕ List Instr) : Image κ := fun a =>
  match blocks (a.toNat / 64) with
  | .inl f => some (.cfun f)
  | .inr code => code[a.toNat % 64]?.map fun i => .instr i (a + 1)

theorem Image.ofBlocks_cfun {blocks : ℕ → κ ⊕ List Instr} {k : ℕ} (hk : 64 * k < 2 ^ 64) {f : κ}
    (hf : blocks k = .inl f) : Image.ofBlocks blocks (UInt64.ofNat (64 * k)) = some (.cfun f) := by
  have haddr : (UInt64.ofNat (64 * k)).toNat / 64 = k := by
    rw [UInt64.toNat_ofNat', Nat.mod_eq_of_lt hk]
    omega
  rw [Image.ofBlocks, haddr, hf]

theorem Image.ofBlocks_at {blocks : ℕ → κ ⊕ List Instr} {k : ℕ} {code : List Instr}
    (hcode : blocks k = .inr code) (hlen : code.length ≤ 64) (hk : 64 * k + 64 < 2 ^ 64) :
    (Image.ofBlocks blocks).At (UInt64.ofNat (64 * k))
      (UInt64.ofNat (64 * k + code.length)) code := by
  suffices h : ∀ (done rest : List Instr), code = done ++ rest → (Image.ofBlocks blocks).At
      (UInt64.ofNat (64 * k + done.length)) (UInt64.ofNat (64 * k + code.length)) rest from
        h [] code rfl
  intro done rest
  induction rest generalizing done with
  | nil =>
      rintro rfl
      rw [List.append_nil]
      rfl
  | cons i rest ih =>
      intro heq
      have hdone : done.length < 64 := by
        rw [heq, List.length_append, List.length_cons] at hlen
        omega
      have haddr : (UInt64.ofNat (64 * k + done.length)).toNat = 64 * k + done.length := by
        rw [UInt64.toNat_ofNat', Nat.mod_eq_of_lt (by omega)]
      have hdiv : (64 * k + done.length) / 64 = k := by omega
      have hmod : (64 * k + done.length) % 64 = done.length := by omega
      refine ⟨UInt64.ofNat (64 * k + done.length) + 1, ?_, ?_⟩
      · rw [Image.ofBlocks, haddr, hdiv, hcode, hmod, heq]
        simp
      · have hrest := ih (done ++ [i]) (by rw [heq, List.append_assoc]; rfl)
        rw [List.length_append, List.length_singleton, ← Nat.add_assoc, UInt64.ofNat_add] at hrest
        exact hrest

/-- What C functions do from entry to return, when interrupts do `irq`. -/
abbrev Behaviour (κ : Type) : Type := (irq : Cpu → Cpu → Prop) → κ → Cpu → Cpu → Prop

/-- A call of a C function, with the states of the processor on entry and on return. -/
structure Call (κ : Type) where
  fn : κ
  entry : Cpu
  exit : Cpu

/-- Runs of a program that end before a return from an interrupt: instructions, C functions as a
whole, and interrupts between them, which do `irq`.  The calls of the C functions are listed in
their order; those in the handlers of the interrupts are not among them. -/
inductive Run (img : Image κ) (cfuns : Behaviour κ) (irq : Cpu → Cpu → Prop) :
    Cpu → List (Call κ) → Cpu → Prop where
  | refl (s : Cpu) : Run img cfuns irq s [] s
  | instr {s t : Cpu} {calls : List (Call κ)} {i : Instr} {next : UInt64} :
      img s.rip = some (.instr i next) → i ≠ .iretq → Run img cfuns irq (exec i next s) calls t →
      Run img cfuns irq s calls t
  | cfun {s s' t : Cpu} {calls : List (Call κ)} {f : κ} : img s.rip = some (.cfun f) →
      cfuns irq f s s' → Run img cfuns irq s' calls t → Run img cfuns irq s (⟨f, s, s'⟩ :: calls) t
  | irq {s s' t : Cpu} {calls : List (Call κ)} : irq s s' → Run img cfuns irq s' calls t →
      Run img cfuns irq s calls t

variable {img : Image κ} {cfuns : Behaviour κ} {irq : Cpu → Cpu → Prop} {s t u : Cpu}
  {calls calls' : List (Call κ)} {c : Call κ}

theorem Run.trans (h : Run img cfuns irq s calls t) (h' : Run img cfuns irq t calls' u) :
    Run img cfuns irq s (calls ++ calls') u := by
  induction h with
  | refl s => exact h'
  | instr hi hne _ ih => exact .instr hi hne (ih h')
  | cfun hf hc _ ih => exact .cfun hf hc (ih h')
  | irq hirq _ ih => exact .irq hirq (ih h')

/-- A run with a call gets to it, and goes on from where it returns. -/
theorem Run.first_call (h : Run img cfuns irq s (c :: calls) t) :
    Run img cfuns irq s [] c.entry ∧ img c.entry.rip = some (.cfun c.fn) ∧
      cfuns irq c.fn c.entry c.exit ∧ Run img cfuns irq c.exit calls t := by
  generalize hcalls : c :: calls = all at h
  induction h with
  | refl s => cases hcalls
  | instr hi hne _ ih =>
      obtain ⟨hto, hrest⟩ := ih hcalls
      exact ⟨.instr hi hne hto, hrest⟩
  | cfun hf hc hrest _ =>
      obtain ⟨rfl, rfl⟩ := List.cons.inj hcalls
      exact ⟨.refl _, hf, hc, hrest⟩
  | irq hirq _ ih =>
      obtain ⟨hto, hrest⟩ := ih hcalls
      exact ⟨.irq hirq hto, hrest⟩

/-- An interrupt from its delivery through a gate to the return from its handler, which makes the
calls `calls`. -/
def Handles (img : Image κ) (cfuns : Behaviour κ) (irq : Cpu → Cpu → Prop) (g : Gate)
    (err : Option UInt64) (s : Cpu) (calls : List (Call κ)) (t : Cpu) : Prop :=
  ∃ d next, Run img cfuns irq (deliver g err s) calls d ∧
    img d.rip = some (.instr .iretq next) ∧ t = exec .iretq next d

end Mcsos.X64
