import Mathlib.Logic.Relation
import Mcsos.Lib.Stack
import Mcsos.Lib.X64

/-!
# Stack code on the processor

Code that works on the registers and on a stack, seen from above: instead of the memory there is the
list of the words on the stack, and the stack pointer follows from its length.  `Sim` says that a
state of the processor looks like that, and every step of the processor is a step on the list
(`Sim.exec`).

Interrupts may come between any two instructions.  What they may do is `Transparent`: everything is
as before except bytes below the stack pointer and a set `G` of bytes that belong to the handlers.
They do not show in the list of words, so the run of the code is that of the code alone
(`Leads.run`).
-/

namespace Mcsos.X64

open Stack Relation

variable {κ : Type} {G : UInt64 → Prop} {size room : ℕ} {base next : UInt64} {m₀ : Ram}

/-- Everything is as before except bytes below the stack pointer and in `G`. -/
structure Transparent (G : UInt64 → Prop) (room : ℕ) (s t : Cpu) : Prop where
  reg : t.reg = s.reg
  rip : t.rip = s.rip
  rflags : t.rflags = s.rflags
  cs : t.cs = s.cs
  ss : t.ss = s.ss
  mem : ∀ x, ¬ Below (s.reg .rsp) room x → ¬ G x → t.mem x = s.mem x

/-- The bytes below `a` do not belong to the handlers. -/
def Apart (G : UInt64 → Prop) (a : UInt64) (n : ℕ) : Prop := ∀ x, Below a n x → ¬ G x

/-- Interrupts are transparent wherever there is room for them. -/
def Quiet (G : UInt64 → Prop) (room : ℕ) (irq : Cpu → Cpu → Prop) : Prop :=
  ∀ s t, irq s t → Apart G (s.reg .rsp) room → Transparent G room s t

/-- The processor with the words on the stack; `reg .rsp` is not used. -/
structure Abs where
  reg : Reg → UInt64
  stack : List UInt64
  rip : UInt64
  rflags : UInt64
  cs : UInt16
  ss : UInt16

namespace Abs

def rsp (base : UInt64) (a : Abs) : UInt64 := ptr base a.stack.length

def setReg (a : Abs) (r : Reg) (v : UInt64) (next : UInt64) : Abs :=
  { a with reg := Function.update a.reg r v, rip := next }

def push (a : Abs) (v : UInt64) (next : UInt64) : Abs :=
  { a with stack := v :: a.stack, rip := next }

/-- The value of a register, the stack pointer included. -/
def read (base : UInt64) (a : Abs) (r : Reg) : UInt64 := if r = .rsp then a.rsp base else a.reg r

@[simp] theorem read_rsp (base : UInt64) (a : Abs) : a.read base .rsp = a.rsp base := if_pos rfl

/-- The effect of an instruction that stays on the registers and the stack. -/
def exec (base : UInt64) (i : Instr) (next : UInt64) (a : Abs) : Option Abs :=
  match i with
  | .mov src dst => if dst = .rsp then none else some (a.setReg dst (a.read base src) next)
  | .load disp b dst =>
    if b ≠ .rsp ∨ dst = .rsp ∨ disp.toNat % 8 ≠ 0 then none
    else (a.stack[disp.toNat / 8]?).map fun w => a.setReg dst w next
  | .store src disp b =>
    if b ≠ .rsp ∨ src = .rsp ∨ disp.toNat % 8 ≠ 0 ∨ a.stack.length ≤ disp.toNat / 8 then none
    else some { a with stack := a.stack.set (disp.toNat / 8) (a.reg src), rip := next }
  | .storeImm imm disp b =>
    if b ≠ .rsp ∨ disp.toNat % 8 ≠ 0 ∨ a.stack.length ≤ disp.toNat / 8 then none
    else some { a with stack := a.stack.set (disp.toNat / 8) imm, rip := next }
  | .pushImm imm => some (a.push imm next)
  | .push src => if src = .rsp then none else some (a.push (a.reg src) next)
  | .pop dst =>
    if dst = .rsp then none
    else a.stack.head?.map fun w => { a.setReg dst w next with stack := a.stack.tail }
  | .add imm dst =>
    if dst ≠ .rsp ∨ imm.toNat % 8 ≠ 0 ∨ a.stack.length < imm.toNat / 8 then none
    else some
      { a with
        stack := a.stack.drop (imm.toNat / 8)
        rflags := addFlags a.rflags (a.rsp base) imm
        rip := next }
  | .cld => some { a with rflags := a.rflags &&& ~~~directionFlag, rip := next }
  | .jmp target => some { a with rip := target }
  | .call target => some (a.push next target)
  | .lea _ _ | .sub _ _ | .jmpMem _ _ | .ret | .iretq => none

end Abs

/-- The state `s` of the processor, on a stack of `size` bytes below `base`; the rest of the memory
is as in `m₀`. -/
structure Sim (G : UInt64 → Prop) (size : ℕ) (base : UInt64) (m₀ : Ram) (a : Abs) (s : Cpu) :
    Prop where
  reg : ∀ r, r ≠ .rsp → s.reg r = a.reg r
  rsp : s.reg .rsp = a.rsp base
  rip : s.rip = a.rip
  rflags : s.rflags = a.rflags
  cs : s.cs = a.cs
  ss : s.ss = a.ss
  stack : Holds s.mem base a.stack
  rest : ∀ x, ¬ Below base size x → ¬ G x → s.mem x = m₀ x

variable {a a' : Abs} {s s' t : Cpu}

/-! ### Interrupts -/

/-- An interrupt below the words on the stack does not show. -/
theorem Sim.irq {irq : Cpu → Cpu → Prop} (h : Sim G size base m₀ a s) (hirq : irq s t)
    (hquiet : Quiet G room irq) (hapart : Apart G base size) (hsize : size < 2 ^ 64)
    (hroom : 8 * a.stack.length + room ≤ size) :
    Sim G size base m₀ a t := by
  have hbelow : ∀ x, Below (s.reg .rsp) room x →
      8 * a.stack.length < (base - x).toNat ∧ (base - x).toNat ≤ 8 * a.stack.length + room := by
    intro x hx
    rw [h.rsp, Abs.rsp] at hx
    exact (below_ptr_iff (by omega)).mp hx
  have htrans :=
    hquiet s t hirq fun x hx =>
    hapart x ⟨by have := hbelow x hx; omega, by have := hbelow x hx; omega⟩
  refine ⟨fun r hr => ?_, ?_, htrans.rip.trans h.rip, htrans.rflags.trans h.rflags,
    htrans.cs.trans h.cs, htrans.ss.trans h.ss, ?_, fun x hx hG => ?_⟩
  · rw [htrans.reg]
    exact h.reg r hr
  · rw [htrans.reg]
    exact h.rsp
  · refine h.stack.congr (by omega) fun x hx =>
      htrans.mem x (fun hlow => ?_) (hapart x (hx.mono (by omega)))
    have hdeep := (hbelow x hlow).1
    have hhigh := hx.2
    omega
  · rw [htrans.mem x (fun hlow => ?_) hG]
    · exact h.rest x hx hG
    · have hdeep := hbelow x hlow
      exact hx ⟨by omega, by omega⟩

/-! ### Instructions -/

theorem Sim.setReg (h : Sim G size base m₀ a s) {r : Reg} (hr : r ≠ .rsp) (v : UInt64) :
    Sim G size base m₀ (a.setReg r v next) ((s.setReg r v).jump next) where
  reg q hq := by
    simp only [Cpu.jump, Cpu.setReg, Abs.setReg, Function.update_apply, h.reg q hq]
  rsp := by
    simp only [Cpu.jump, Cpu.setReg, Abs.setReg, Function.update_of_ne hr.symm]
    exact h.rsp
  rip := rfl
  rflags := h.rflags
  cs := h.cs
  ss := h.ss
  stack := h.stack
  rest := h.rest

theorem Sim.jump (h : Sim G size base m₀ a s) (target : UInt64) :
    Sim G size base m₀ { a with rip := target } (s.jump target) :=
  ⟨h.reg, h.rsp, rfl, h.rflags, h.cs, h.ss, h.stack, h.rest⟩

theorem Sim.push (h : Sim G size base m₀ a s) (hroom : 8 * (a.stack.length + 1) ≤ size)
    (hsize : size < 2 ^ 64) (v next : UInt64) :
    Sim G size base m₀ (a.push v next) ((s.push v).jump next) := by
  have hptr : s.reg .rsp - 8 = ptr base (a.stack.length + 1) := by rw [h.rsp, Abs.rsp, ptr_succ]
  refine ⟨fun r hr => ?_, ?_, rfl, h.rflags, h.cs, h.ss, ?_, fun x hx hG => ?_⟩
  · simp only [Cpu.jump, Cpu.push, Function.update_of_ne hr]
    exact h.reg r hr
  · simp only [Cpu.jump, Cpu.push, Function.update_self, hptr]
    rfl
  · simp only [Cpu.jump, Cpu.push, hptr]
    exact h.stack.push (by omega) v
  · simp only [Cpu.jump, Cpu.push, hptr]
    rw [Ram.store_of_far ?_, h.rest x hx hG]
    by_cases hdeep : (base - x).toNat ≤ 8 * (a.stack.length + 1)
    · have hzero : (base - x).toNat = 0 := by
        by_contra hpos
        exact hx ⟨Nat.pos_of_ne_zero hpos, by omega⟩
      rw [toNat_sub_ptr (by omega) hdeep, hzero]
      omega
    · have hlt := (base - x).toNat_lt
      rw [toNat_sub_ptr_of_lt (by omega) (by omega)]
      omega

/-- A store into a word of the stack. -/
theorem Sim.set (h : Sim G size base m₀ a s) (hroom : 8 * a.stack.length ≤ size)
    (hsize : size < 2 ^ 64) {disp : UInt64} (hword : disp.toNat % 8 = 0)
    (hdisp : disp.toNat / 8 < a.stack.length) (v : UInt64) :
    Sim G size base m₀ { a with stack := a.stack.set (disp.toNat / 8) v, rip := next }
      { s with mem := s.mem.store (s.reg .rsp + disp) v, rip := next } := by
  have haddr : s.reg .rsp + disp = ptr base (a.stack.length - disp.toNat / 8) := by
    rw [h.rsp, Abs.rsp, ptr_add_words hword hdisp.le]
  refine ⟨h.reg, ?_, rfl, h.rflags, h.cs, h.ss, ?_, fun x hx hG => ?_⟩
  · rw [Abs.rsp, List.length_set]
    exact h.rsp
  · change Holds (s.mem.store (s.reg .rsp + disp) v) base _
    rw [haddr]
    exact h.stack.set (by omega) hdisp v
  · change s.mem.store (s.reg .rsp + disp) v x = m₀ x
    rw [haddr, Ram.store_of_far ?_, h.rest x hx hG]
    by_cases hdeep : (base - x).toNat ≤ 8 * (a.stack.length - disp.toNat / 8)
    · have hzero : (base - x).toNat = 0 := by
        by_contra hpos
        exact hx ⟨Nat.pos_of_ne_zero hpos, by omega⟩
      rw [toNat_sub_ptr (by omega) hdeep, hzero]
      omega
    · have hlt := (base - x).toNat_lt
      rw [toNat_sub_ptr_of_lt (by omega) (by omega)]
      omega

/-- The stack pointer behind `k` more words. -/
theorem Sim.rsp_add (h : Sim G size base m₀ a s) {d : UInt64} (hword : d.toNat % 8 = 0)
    (hd : d.toNat / 8 ≤ a.stack.length) :
    s.reg .rsp + d = ptr base (a.stack.drop (d.toNat / 8)).length := by
  rw [h.rsp, Abs.rsp, List.length_drop, ptr_add_words hword hd]

theorem Sim.top (h : Sim G size base m₀ a s) {w : UInt64} {ws : List UInt64}
    (hstack : a.stack = w :: ws) :
    s.top = w := by
  have hget := h.stack
  rw [hstack] at hget
  rw [Cpu.top, h.rsp, Abs.rsp, hstack]
  exact hget.1

/-- The `i`th word from the top. -/
theorem Sim.load (h : Sim G size base m₀ a s) {disp w : UInt64} (hword : disp.toNat % 8 = 0)
    (hw : a.stack[disp.toNat / 8]? = some w) : s.mem.load (s.reg .rsp + disp) = w := by
  rw [h.rsp, Abs.rsp]
  exact h.stack.load_add hword hw

theorem Sim.pop (h : Sim G size base m₀ a s) {dst : Reg} (hdst : dst ≠ .rsp) {w : UInt64}
    {ws : List UInt64} (hstack : a.stack = w :: ws) :
    Sim G size base m₀ { a.setReg dst w next with stack := ws }
      (((s.setReg .rsp (s.reg .rsp + 8)).setReg dst s.top).jump next) := by
  have hrsp :=
    h.rsp_add (d := 8) (by decide) (by rw [hstack, List.length_cons]; exact Nat.le_add_left _ _)
  rw [hstack] at hrsp
  have hheld := h.stack
  rw [hstack] at hheld
  refine ⟨fun r hr => ?_, ?_, rfl, h.rflags, h.cs, h.ss, hheld.2, h.rest⟩
  · simp only [Cpu.jump, Cpu.setReg, Abs.setReg, Function.update_apply, if_neg hr, h.reg r hr,
      h.top hstack]
  · simp only [Cpu.jump, Cpu.setReg, Function.update_of_ne hdst.symm, Function.update_self]
    exact hrsp

theorem Sim.addRsp (h : Sim G size base m₀ a s) {imm : UInt64} (hword : imm.toNat % 8 = 0)
    (himm : imm.toNat / 8 ≤ a.stack.length) :
    Sim G size base m₀
      { a with
        stack := a.stack.drop (imm.toNat / 8)
        rflags := addFlags a.rflags (a.rsp base) imm
        rip := next }
      (X64.exec (.add imm .rsp) next s) := by
  refine ⟨fun r hr => ?_, ?_, rfl, ?_, h.cs, h.ss, h.stack.drop _, h.rest⟩
  · simp only [X64.exec, Cpu.setReg, Function.update_of_ne hr]
    exact h.reg r hr
  · simp only [X64.exec, Cpu.setReg, Function.update_self]
    exact h.rsp_add hword himm
  · simp only [X64.exec, h.rflags, h.rsp]

theorem Sim.read (h : Sim G size base m₀ a s) (r : Reg) : s.reg r = a.read base r := by
  rw [Abs.read]
  split
  · rename_i hr
    rw [hr, h.rsp]
  · exact h.reg r ‹_›

/-- **A step of the processor is a step on the list of words.** -/
theorem Sim.exec {i : Instr} (h : Sim G size base m₀ a s) (hexec : a.exec base i next = some a')
    (hroom : 8 * a.stack.length ≤ size) (hroom' : 8 * a'.stack.length ≤ size)
    (hsize : size < 2 ^ 64) :
    Sim G size base m₀ a' (X64.exec i next s) := by
  cases i with
  | mov src dst =>
      simp only [Abs.exec, Option.ite_none_left_eq_some, Option.some.injEq] at hexec
      obtain ⟨hdst, rfl⟩ := hexec
      simp only [X64.exec, h.read src]
      exact h.setReg hdst _
  | load disp b dst =>
      simp only [Abs.exec, Option.ite_none_left_eq_some, Option.map_eq_some_iff, not_or,
        not_not] at hexec
      obtain ⟨⟨rfl, hdst, hword⟩, w, hw, rfl⟩ := hexec
      simp only [X64.exec, h.load hword hw]
      exact h.setReg hdst w
  | store src disp b =>
      simp only [Abs.exec, Option.ite_none_left_eq_some, Option.some.injEq, not_or, not_not,
        not_le] at hexec
      obtain ⟨⟨rfl, hsrc, hword, hdisp⟩, rfl⟩ := hexec
      simp only [X64.exec, h.reg src hsrc]
      exact h.set hroom hsize hword hdisp _
  | storeImm imm disp b =>
      simp only [Abs.exec, Option.ite_none_left_eq_some, Option.some.injEq, not_or, not_not,
        not_le] at hexec
      obtain ⟨⟨rfl, hword, hdisp⟩, rfl⟩ := hexec
      exact h.set hroom hsize hword hdisp _
  | pushImm imm =>
      simp only [Abs.exec, Option.some.injEq] at hexec
      subst hexec
      exact h.push hroom' hsize imm next
  | push src =>
      simp only [Abs.exec, Option.ite_none_left_eq_some, Option.some.injEq] at hexec
      obtain ⟨hsrc, rfl⟩ := hexec
      simp only [X64.exec, h.reg src hsrc]
      exact h.push hroom' hsize _ next
  | pop dst =>
      simp only [Abs.exec, Option.ite_none_left_eq_some, Option.map_eq_some_iff] at hexec
      obtain ⟨hdst, w, hw, rfl⟩ := hexec
      exact h.pop hdst (List.cons_head?_tail hw).symm
  | add imm dst =>
      simp only [Abs.exec, Option.ite_none_left_eq_some, Option.some.injEq, not_or, not_not,
        not_lt] at hexec
      obtain ⟨⟨rfl, hword, himm⟩, rfl⟩ := hexec
      exact h.addRsp hword himm
  | cld =>
      simp only [Abs.exec, Option.some.injEq] at hexec
      subst hexec
      refine ⟨h.reg, h.rsp, rfl, ?_, h.cs, h.ss, h.stack, h.rest⟩
      simp only [X64.exec, h.rflags]
  | jmp target =>
      simp only [Abs.exec, Option.some.injEq] at hexec
      subst hexec
      exact h.jump target
  | call target =>
      simp only [Abs.exec, Option.some.injEq] at hexec
      subst hexec
      exact h.push hroom' hsize next target
  | lea | sub | jmpMem | ret | iretq => simp only [Abs.exec, reduceCtorEq] at hexec

/-! ### Code -/

/-- From `a` the code gets to `Q` by instructions on the registers and the stack; `room` bytes of
the stack stay free. -/
inductive Leads (img : Image κ) (base : UInt64) (size room : ℕ) (Q : Abs → Prop) : Abs → Prop where
  | done {a : Abs} : 8 * a.stack.length + room ≤ size → Q a → Leads img base size room Q a
  | instr {a b : Abs} {i : Instr} {next : UInt64} : 8 * a.stack.length + room ≤ size →
      img a.rip = some (.instr i next) → a.exec base i next = some b →
      Leads img base size room Q b → Leads img base size room Q a
  /-- `subq $(8 * k), %rsp`: the new words are those that the memory holds. -/
  | reserve {a : Abs} {k : ℕ} {next : UInt64} : 8 * a.stack.length + room ≤ size →
      img a.rip = some (.instr (.sub (UInt64.ofNat (8 * k)) .rsp) next) →
      (∀ front : List UInt64, front.length = k → Leads img base size room Q
        { a with
          stack := front ++ a.stack
          rflags := subFlags a.rflags (a.rsp base) (UInt64.ofNat (8 * k))
          rip := next }) →
      Leads img base size room Q a

/-- At `Q` the code ends: there stands a C function, or the return from the interrupt. -/
def Ends (img : Image κ) (Q : Abs → Prop) : Prop :=
  ∀ a, Q a → (∃ f, img a.rip = some (.cfun f)) ∨ ∃ next, img a.rip = some (.instr .iretq next)

variable {img : Image κ} {Q : Abs → Prop} {cfuns : Behaviour κ} {irq : Cpu → Cpu → Prop} {f : κ}
  {calls : List (Call κ)} {c : Call κ}

theorem ends_of_cfun (h : ∀ a, Q a → img a.rip = some (.cfun f)) : Ends img Q :=
  fun a ha => .inl ⟨f, h a ha⟩

theorem ends_of_iretq (h : ∀ a, Q a → ∃ next, img a.rip = some (.instr .iretq next)) : Ends img Q :=
  fun a ha => .inr (h a ha)

theorem Leads.room_le (h : Leads img base size room Q a) : 8 * a.stack.length + room ≤ size := by
  cases h <;> assumption

/-- `subq` makes room for words. -/
theorem Sim.reserve (h : Sim G size base m₀ a s) (k : ℕ) (next : UInt64) :
    ∃ front : List UInt64, front.length = k ∧ Sim G size base m₀
      { a with
        stack := front ++ a.stack
        rflags := subFlags a.rflags (a.rsp base) (UInt64.ofNat (8 * k))
        rip := next }
      (X64.exec (.sub (UInt64.ofNat (8 * k)) .rsp) next s) := by
  obtain ⟨front, hlen, hheld⟩ := exists_holds s.mem base a.stack h.stack k
  refine ⟨front, hlen, fun r hr => ?_, ?_, rfl, ?_, h.cs, h.ss, hheld, h.rest⟩
  · simp only [X64.exec, Cpu.setReg, Function.update_of_ne hr]
    exact h.reg r hr
  · simp only [X64.exec, Cpu.setReg, Function.update_self, Abs.rsp]
    rw [h.rsp, Abs.rsp, List.length_append, hlen, Nat.add_comm, ← ptr_add base a.stack.length k,
      UInt64.add_sub_cancel]
  · simp only [X64.exec, h.rflags, h.rsp]

/-- An instruction on the stack writes below its base. -/
theorem Sim.exec_mem {i : Instr} (h : Sim G size base m₀ a s) (hexec : a.exec base i next = some a')
    (hroom : 8 * a.stack.length ≤ size) (hroom' : 8 * a'.stack.length ≤ size)
    (hsize : size < 2 ^ 64) {x : UInt64} (hx : ¬ Below base size x) :
    (X64.exec i next s).mem x = s.mem x := by
  have hself : Sim (fun _ => False) size base s.mem a s :=
    ⟨h.reg, h.rsp, h.rip, h.rflags, h.cs, h.ss, h.stack, fun _ _ _ => rfl⟩
  exact (hself.exec hexec hroom hroom' hsize).rest x hx not_false

/-- The next instruction is that of the code. -/
theorem Leads.step {i : Instr} (h : Leads img base size room Q a) (hends : Ends img Q)
    (hsim : Sim G size base m₀ a s) (hsize : size < 2 ^ 64) (hi : img s.rip = some (.instr i next))
    (hne : i ≠ .iretq) :
    (∃ a', Leads img base size room Q a' ∧ Sim G size base m₀ a' (X64.exec i next s)) ∧
      ∀ x, ¬ Below base size x → (X64.exec i next s).mem x = s.mem x := by
  rw [hsim.rip] at hi
  cases h with
  | done _ hq =>
      rcases hends a hq with ⟨f, hf⟩ | ⟨next', hiret⟩
      · rw [hi] at hf
        cases hf
      · rw [hi] at hiret
        injection hiret with hiret
        injection hiret with heq
        exact absurd heq hne
  | @instr _ a' j next' hroom hj hexec hrest =>
      rw [hi] at hj
      injection hj with hj
      injection hj with hinstr hnext
      subst hinstr hnext
      have hroom' := hrest.room_le
      exact ⟨⟨a', hrest, hsim.exec hexec (by omega) (by omega) hsize⟩,
        fun x hx => hsim.exec_mem hexec (by omega) (by omega) hsize hx⟩
  | @reserve _ k next' hroom hj hrest =>
      rw [hi] at hj
      injection hj with hj
      injection hj with hinstr hnext
      subst hinstr hnext
      obtain ⟨front, hlen, hsim'⟩ := hsim.reserve k next
      exact ⟨⟨_, hrest front hlen, hsim'⟩, fun _ _ => rfl⟩

/-- **Runs with interrupts.**  Until it calls a C function, a run of the code is where the code
alone would be. -/
theorem Leads.run (hquiet : Quiet G room irq) (hapart : Apart G base size) (hsize : size < 2 ^ 64)
    (hends : Ends img Q) (hrun : Run img cfuns irq s [] t) (hleads : Leads img base size room Q a)
    (hsim : Sim G size base m₀ a s) :
    ∃ a', Leads img base size room Q a' ∧ Sim G size base m₀ a' t := by
  generalize hcalls : ([] : List (Call κ)) = calls at hrun
  induction hrun generalizing a with
  | refl s => exact ⟨a, hleads, hsim⟩
  | instr hi hne _ ih =>
      obtain ⟨a', hleads', hsim'⟩ := (hleads.step hends hsim hsize hi hne).1
      exact ih hleads' hsim' hcalls
  | cfun _ _ _ _ => cases hcalls
  | irq hirq _ ih =>
      exact ih hleads (hsim.irq hirq hquiet hapart hsize hleads.room_le) hcalls

/-- Code that has come to the return from the interrupt has come to `Q`. -/
theorem Leads.at_iretq (h : Leads img base size room Q a)
    (hi : img a.rip = some (.instr .iretq next)) : Q a := by
  cases h with
  | done _ hq => exact hq
  | instr _ hj hexec _ =>
      rw [hi] at hj
      injection hj with hj
      injection hj with hinstr hnext
      subst hinstr
      simp only [Abs.exec, reduceCtorEq] at hexec
  | reserve _ hj _ =>
      rw [hi] at hj
      cases hj

/-- Code that has come to a C function has come to `Q`. -/
theorem Leads.at_cfun (h : Leads img base size room Q a) (hf : img a.rip = some (.cfun f)) :
    Q a := by
  cases h with
  | done _ hq => exact hq
  | instr _ hj _ _ =>
      rw [hf] at hj
      cases hj
  | reserve _ hj _ =>
      rw [hf] at hj
      cases hj

/-- A run of code that ends at a C function calls this one first. -/
theorem Leads.first_call (hquiet : Quiet G room irq) (hapart : Apart G base size)
    (hsize : size < 2 ^ 64) (hQ : ∀ a, Q a → img a.rip = some (.cfun f))
    (hleads : Leads img base size room Q a) (hsim : Sim G size base m₀ a s)
    (hrun : Run img cfuns irq s (c :: calls) t) :
    c.fn = f ∧ cfuns irq f c.entry c.exit ∧ Run img cfuns irq s [] c.entry ∧
      Run img cfuns irq c.exit calls t ∧
      ∃ b, Q b ∧ 8 * b.stack.length + room ≤ size ∧ Sim G size base m₀ b c.entry := by
  obtain ⟨hto, hf, hc, hrest⟩ := hrun.first_call
  obtain ⟨b, hleads', hsim'⟩ := hleads.run hquiet hapart hsize (ends_of_cfun hQ) hto hsim
  rw [hsim'.rip] at hf
  have hq := hleads'.at_cfun hf
  have hfn : c.fn = f := by
    have hsame := hf.symm.trans (hQ b hq)
    injection hsame with hsame
    injection hsame with hfn
  exact ⟨hfn, hfn ▸ hc, hto, hrest, b, hq, hleads'.room_le, hsim'⟩

/-- It does not return from the interrupt before. -/
theorem Leads.calls_of_iretq (hquiet : Quiet G room irq) (hapart : Apart G base size)
    (hsize : size < 2 ^ 64) (hQ : ∀ a, Q a → img a.rip = some (.cfun f))
    (hleads : Leads img base size room Q a) (hsim : Sim G size base m₀ a s)
    (hrun : Run img cfuns irq s calls t) (hi : img t.rip = some (.instr .iretq next)) :
    ∃ c rest, calls = c :: rest := by
  cases calls with
  | cons c rest => exact ⟨c, rest, rfl⟩
  | nil =>
      obtain ⟨b, hleads', hsim'⟩ := hleads.run hquiet hapart hsize (ends_of_cfun hQ) hrun hsim
      rw [hsim'.rip] at hi
      have hf := hQ b (hleads'.at_iretq hi)
      rw [hi] at hf
      cases hf

/-- A run of code that ends at the return from the interrupt calls nothing. -/
theorem Leads.no_calls (hquiet : Quiet G room irq) (hapart : Apart G base size)
    (hsize : size < 2 ^ 64) (hQ : ∀ a, Q a → ∃ next, img a.rip = some (.instr .iretq next))
    (hleads : Leads img base size room Q a) (hsim : Sim G size base m₀ a s)
    (hrun : Run img cfuns irq s calls t) (hi : img t.rip = some (.instr .iretq next)) :
    calls = [] ∧ ∃ b, Q b ∧ Sim G size base m₀ b t := by
  cases calls with
  | cons c rest =>
      obtain ⟨hto, hf, -, -⟩ := hrun.first_call
      obtain ⟨b, hleads', hsim'⟩ := hleads.run hquiet hapart hsize (ends_of_iretq hQ) hto hsim
      rw [hsim'.rip] at hf
      obtain ⟨next', hiret⟩ := hQ b (hleads'.at_cfun hf)
      rw [hf] at hiret
      cases hiret
  | nil =>
      obtain ⟨b, hleads', hsim'⟩ := hleads.run hquiet hapart hsize (ends_of_iretq hQ) hrun hsim
      exact ⟨rfl, b, hleads'.at_iretq (hsim'.rip ▸ hi), hsim'⟩

/-- Without interrupts the code gets to `Q`, and writes below its base only. -/
theorem Leads.exists_run (cfuns : Behaviour κ) (irq : Cpu → Cpu → Prop) (hsize : size < 2 ^ 64)
    (hleads : Leads img base size room Q a) (hsim : Sim G size base m₀ a s) :
    ∃ t b, Run img cfuns irq s [] t ∧ Q b ∧ 8 * b.stack.length + room ≤ size ∧
      Sim G size base m₀ b t ∧ ∀ x, ¬ Below base size x → t.mem x = s.mem x := by
  induction hleads generalizing s with
  | @done a hroom hq => exact ⟨s, a, .refl s, hq, hroom, hsim, fun _ _ => rfl⟩
  | @instr a a' i next hroom hi hexec hrest ih =>
      have hroom' := hrest.room_le
      have hne : i ≠ .iretq := by
        rintro rfl
        simp only [Abs.exec, reduceCtorEq] at hexec
      obtain ⟨t, b, hrun, hb, hfree, hsimb, hmem⟩ :=
        ih (hsim.exec hexec (by omega) (by omega) hsize)
      exact ⟨t, b, .instr (hsim.rip ▸ hi) hne hrun, hb, hfree, hsimb, fun x hx =>
        (hmem x hx).trans (hsim.exec_mem hexec (by omega) (by omega) hsize hx)⟩
  | @reserve a k next hroom hi hrest ih =>
      obtain ⟨front, hlen, hsim'⟩ := hsim.reserve k next
      obtain ⟨t, b, hrun, hb, hfree, hsimb, hmem⟩ := ih front hlen hsim'
      exact ⟨t, b, .instr (hsim.rip ▸ hi) (by simp) hrun, hb, hfree, hsimb, hmem⟩

/-! ### Data that interrupts change -/

/-- The data is in the bytes `G`. -/
def DataIn {ω : Type} (G : UInt64 → Prop) (data : Ram → ω) : Prop :=
  ∀ m m' : Ram, (∀ x, G x → m' x = m x) → data m' = data m

/-- Interrupts change the data by a number of steps. -/
def Advances {ω : Type} (G : UInt64 → Prop) (room : ℕ) (data : Ram → ω) (step : ω → ω → Prop)
    (irq : Cpu → Cpu → Prop) : Prop :=
  ∀ s t, irq s t → Apart G (s.reg .rsp) room → ReflTransGen step (data s.mem) (data t.mem)

/-- From the memory `m` to the memory `m'` data in the bytes `G` is changed by interrupts only. -/
def Follows (G : UInt64 → Prop) (room : ℕ) (irq : Cpu → Cpu → Prop) (m m' : Ram) : Prop :=
  ∀ {ω : Type} {data : Ram → ω} {step : ω → ω → Prop}, DataIn G data →
    Advances G room data step irq → ReflTransGen step (data m) (data m')

/-- Until it calls a C function, a run of the code leaves data to interrupts. -/
theorem Leads.follows (hquiet : Quiet G room irq) (hapart : Apart G base size)
    (hsize : size < 2 ^ 64) (hends : Ends img Q) (hrun : Run img cfuns irq s [] t)
    (hleads : Leads img base size room Q a) (hsim : Sim G size base m₀ a s) :
    Follows G room irq s.mem t.mem := by
  intro ω data step hdata hadvances
  generalize hcalls : ([] : List (Call κ)) = calls at hrun
  induction hrun generalizing a with
  | refl s => exact .refl
  | @instr s t calls i next hi hne _ ih =>
      obtain ⟨⟨a', hleads', hsim'⟩, hmem⟩ := hleads.step hends hsim hsize hi hne
      have hsame : data (X64.exec i next s).mem = data s.mem :=
        hdata _ _ fun x hx => hmem x fun hlow => hapart x hlow hx
      rw [← hsame]
      exact ih hleads' hsim' hcalls
  | cfun _ _ _ _ => cases hcalls
  | @irq s s' t calls hirq _ ih =>
      have hroom := hleads.room_le
      have hlow : Apart G (s.reg .rsp) room := by
        intro x hx
        rw [hsim.rsp, Abs.rsp, below_ptr_iff (by omega)] at hx
        exact hapart x ⟨by omega, by omega⟩
      exact (hadvances s s' hirq hlow).trans
        (ih hleads (hsim.irq hirq hquiet hapart hsize hleads.room_le) hcalls)

/-! ### Saving and restoring registers -/

/-- The registers `rs` are pushed one after the other. -/
theorem Leads.pushes {rs : List Reg} {b : UInt64} (hrs : ∀ r ∈ rs, r ≠ .rsp)
    (hcode : img.At a.rip b (rs.map .push)) (hroom : 8 * (a.stack.length + rs.length) + room ≤ size)
    (hrest : Leads img base size room Q
      { a with stack := (rs.map a.reg).reverse ++ a.stack, rip := b }) :
    Leads img base size room Q a := by
  induction rs generalizing a with
  | nil =>
      obtain rfl : a.rip = b := hcode
      exact hrest
  | cons r rs ih =>
      obtain ⟨next, hpush, hcode'⟩ := hcode
      rw [List.length_cons] at hroom
      have hexec : a.exec base (.push r) next = some (a.push (a.reg r) next) := by
        simp only [Abs.exec, if_neg (hrs r (List.mem_cons_self ..))]
      refine .instr (by omega) hpush hexec
        (ih (fun q hq => hrs q (List.mem_cons_of_mem _ hq)) hcode' ?_ ?_)
      · simp only [Abs.push, List.length_cons]
        omega
      · simpa [Abs.push] using hrest

/-- The registers after the words `ws` were popped into `rs`. -/
def restored (reg : Reg → UInt64) : List Reg → List UInt64 → Reg → UInt64
  | r :: rs, w :: ws => restored (Function.update reg r w) rs ws
  | _, _ => reg

theorem Leads.pops {rs : List Reg} {ws tail : List UInt64} {b : UInt64} (hrs : ∀ r ∈ rs, r ≠ .rsp)
    (hcode : img.At a.rip b (rs.map .pop)) (hstack : a.stack = ws ++ tail)
    (hlen : rs.length = ws.length) (hroom : 8 * a.stack.length + room ≤ size)
    (hrest : Leads img base size room Q
      { a with reg := restored a.reg rs ws, stack := tail, rip := b }) :
    Leads img base size room Q a := by
  induction rs generalizing a ws with
  | nil =>
      obtain rfl : a.rip = b := hcode
      obtain rfl : ws = [] := List.eq_nil_of_length_eq_zero hlen.symm
      rw [List.nil_append] at hstack
      subst hstack
      exact hrest
  | cons r rs ih =>
      obtain ⟨next, hpop, hcode'⟩ := hcode
      cases ws with
      | nil => simp at hlen
      | cons w ws =>
          rw [List.cons_append] at hstack
          rw [hstack, List.length_cons] at hroom
          have hexec : a.exec base (.pop r) next =
              some { a.setReg r w next with stack := ws ++ tail } := by
            simp only [Abs.exec, hstack, if_neg (hrs r (List.mem_cons_self ..))]
            rfl
          refine .instr (by rw [hstack, List.length_cons]; exact hroom) hpop hexec
            (ih (fun q hq => hrs q (List.mem_cons_of_mem _ hq)) hcode' rfl
              (Nat.succ.inj hlen) ?_ ?_)
          · simp only
            omega
          · simpa [restored, Abs.setReg] using hrest

theorem restored_apply_of_notMem {reg : Reg → UInt64} {rs : List Reg} {ws : List UInt64} {q : Reg}
    (hq : q ∉ rs) :
    restored reg rs ws q = reg q := by
  induction rs generalizing reg ws with
  | nil => rfl
  | cons r rs ih =>
      cases ws with
      | nil => rfl
      | cons w ws =>
          rw [List.mem_cons, not_or] at hq
          rw [restored, ih hq.2, Function.update_of_ne hq.1]

/-- Restoring what was saved gives the saved registers. -/
theorem restored_map {reg saved : Reg → UInt64} {rs : List Reg} (hrs : rs.Nodup) {q : Reg}
    (hq : q ∈ rs) :
    restored reg rs (rs.map saved) q = saved q := by
  induction rs generalizing reg with
  | nil => exact absurd hq List.not_mem_nil
  | cons r rs ih =>
      rw [List.nodup_cons] at hrs
      rcases List.mem_cons.mp hq with rfl | hq
      · rw [List.map_cons, restored, restored_apply_of_notMem hrs.1, Function.update_self]
      · rw [List.map_cons, restored, ih hrs.2 hq]

end Mcsos.X64
