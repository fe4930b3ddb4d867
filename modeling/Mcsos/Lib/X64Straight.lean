import Mcsos.Lib.X64Stack

/-!
# Straight-line code under interrupts

Code that is no stack discipline: it may change the stack pointer as it likes and address memory
through any register.  An interrupt changes bytes below the stack pointer and bytes of its own; if
the code never reads these dead bytes, a run with interrupts is that of the code alone up to the
dead bytes (`Goes.run`).
-/

namespace Mcsos.X64

open Stack

variable {κ : Type} {img : Image κ} {cfuns : Behaviour κ} {irq : Cpu → Cpu → Prop}
  {G D : UInt64 → Prop} {room : ℕ} {next : UInt64} {Q : Cpu → Prop} {s t u : Cpu}

/-- Two states of the processor that differ in dead bytes only. -/
structure Same (D : UInt64 → Prop) (s t : Cpu) : Prop where
  reg : t.reg = s.reg
  rip : t.rip = s.rip
  rflags : t.rflags = s.rflags
  cs : t.cs = s.cs
  ss : t.ss = s.ss
  mem : ∀ x, ¬ D x → t.mem x = s.mem x

theorem Same.refl (D : UInt64 → Prop) (s : Cpu) : Same D s s :=
  ⟨rfl, rfl, rfl, rfl, rfl, fun _ _ => rfl⟩

theorem Same.trans (h : Same D s t) (h' : Same D t u) : Same D s u :=
  ⟨h'.reg.trans h.reg, h'.rip.trans h.rip, h'.rflags.trans h.rflags, h'.cs.trans h.cs,
    h'.ss.trans h.ss, fun x hx => (h'.mem x hx).trans (h.mem x hx)⟩

theorem Transparent.same (h : Transparent G room s t)
    (hbelow : ∀ x, Below (s.reg .rsp) room x → D x)
    (hG : ∀ x, G x → D x) : Same D s t :=
  ⟨h.reg, h.rip, h.rflags, h.cs, h.ss, fun x hx => h.mem x (fun hlow => hx (hbelow x hlow))
    fun hg => hx (hG x hg)⟩

/-- The addresses of the words that an instruction reads. -/
def reads (i : Instr) (s : Cpu) : List UInt64 :=
  match i with
  | .load disp b _ => [s.reg b + disp]
  | .jmpMem disp b => [s.reg b + disp]
  | .pop _ | .ret => [s.reg .rsp]
  | .iretq => [s.reg .rsp, s.reg .rsp + 8, s.reg .rsp + 16, s.reg .rsp + 24, s.reg .rsp + 32]
  | _ => []

/-- No byte of the word at `a` is dead. -/
def Live (D : UInt64 → Prop) (a : UInt64) : Prop := ∀ x, (x - a).toNat < 8 → ¬ D x

theorem Same.load (h : Same D s t) {a : UInt64} (ha : Live D a) : t.mem.load a = s.mem.load a := by
  refine Ram.load_congr fun i hi => h.mem _ (ha _ ?_)
  rw [Ram.toNat_add_sub_self (by omega)]
  exact hi

theorem store_congr {m m' : Ram} (h : ∀ x, ¬ D x → m' x = m x) (a v : UInt64) :
    ∀ x, ¬ D x → m'.store a v x = m.store a v x := by
  intro x hx
  by_cases hword : (x - a).toNat < 8
  · simp only [Ram.store, if_pos hword]
  · simp only [Ram.store, if_neg hword, h x hx]

theorem Same.setReg (h : Same D s t) (r : Reg) (v : UInt64) :
    Same D (s.setReg r v) (t.setReg r v) :=
  ⟨by simp only [Cpu.setReg, h.reg], h.rip, h.rflags, h.cs, h.ss, h.mem⟩

theorem Same.jump (h : Same D s t) (target : UInt64) : Same D (s.jump target) (t.jump target) :=
  ⟨h.reg, rfl, h.rflags, h.cs, h.ss, h.mem⟩

theorem Same.push (h : Same D s t) (v : UInt64) : Same D (s.push v) (t.push v) := by
  refine ⟨?_, h.rip, h.rflags, h.cs, h.ss, ?_⟩
  · simp only [Cpu.push, h.reg]
  · simp only [Cpu.push, h.reg]
    exact store_congr h.mem _ _

/-- An instruction that reads no dead byte does the same in both states. -/
theorem Same.exec (h : Same D s t) (i : Instr) (hi : ∀ a ∈ reads i s, Live D a) (next : UInt64) :
    Same D (exec i next s) (exec i next t) := by
  have hreg := h.reg
  have hflags := h.rflags
  cases i with
  | mov src dst =>
      simp only [X64.exec, hreg]
      exact (h.setReg dst _).jump next
  | load disp b dst =>
      have hload := h.load (hi _ (List.mem_singleton.mpr rfl))
      simp only [X64.exec, hreg, hload]
      exact (h.setReg dst _).jump next
  | store src disp b =>
      simp only [X64.exec, hreg]
      exact ⟨rfl, rfl, hflags, h.cs, h.ss, store_congr h.mem _ _⟩
  | storeImm imm disp b =>
      simp only [X64.exec, hreg]
      exact ⟨rfl, rfl, hflags, h.cs, h.ss, store_congr h.mem _ _⟩
  | lea label dst => exact (h.setReg dst label).jump next
  | pushImm imm => exact (h.push imm).jump next
  | push src =>
      simp only [X64.exec, hreg]
      exact (h.push _).jump next
  | pop dst =>
      have htop : t.top = s.top := by
        rw [Cpu.top, Cpu.top, hreg]
        exact h.load (hi _ (List.mem_singleton.mpr rfl))
      simp only [X64.exec, hreg, htop]
      exact ((h.setReg .rsp _).setReg dst _).jump next
  | add imm dst =>
      simp only [X64.exec, hreg, hflags]
      exact ⟨(h.setReg dst _).reg, rfl, rfl, h.cs, h.ss, h.mem⟩
  | sub imm dst =>
      simp only [X64.exec, hreg, hflags]
      exact ⟨(h.setReg dst _).reg, rfl, rfl, h.cs, h.ss, h.mem⟩
  | cld =>
      simp only [X64.exec, hflags]
      exact ⟨hreg, rfl, rfl, h.cs, h.ss, h.mem⟩
  | jmp target => exact h.jump target
  | jmpMem disp b =>
      have hload := h.load (hi _ (List.mem_singleton.mpr rfl))
      simp only [X64.exec, hreg, hload]
      exact h.jump _
  | call target => exact (h.push next).jump target
  | ret =>
      have htop : t.top = s.top := by
        rw [Cpu.top, Cpu.top, hreg]
        exact h.load (hi _ (List.mem_singleton.mpr rfl))
      simp only [X64.exec, hreg, htop]
      exact (h.setReg .rsp _).jump _
  | iretq =>
      have htop : t.top = s.top := by
        rw [Cpu.top, Cpu.top, hreg]
        exact h.load (hi _ (by simp [reads]))
      have hcs := h.load (hi (s.reg .rsp + 8) (by simp [reads]))
      have hfl := h.load (hi (s.reg .rsp + 16) (by simp [reads]))
      have hrsp := h.load (hi (s.reg .rsp + 24) (by simp [reads]))
      have hss := h.load (hi (s.reg .rsp + 32) (by simp [reads]))
      simp only [X64.exec, hreg, htop, hcs, hfl, hrsp, hss]
      exact ⟨rfl, rfl, rfl, rfl, rfl, h.mem⟩

/-- From `s` the code gets to `Q` without a read of dead bytes.  Dead are the bytes of the
interrupts, `G`, and those they may overwrite below the stack pointer, which are in `L`. -/
inductive Goes (img : Image κ) (room : ℕ) (L G : UInt64 → Prop) (Q : Cpu → Prop) : Cpu → Prop where
  | done {s : Cpu} : (∀ x, Below (s.reg .rsp) room x → L x) → Q s → Goes img room L G Q s
  | instr {s : Cpu} {i : Instr} {next : UInt64} : (∀ x, Below (s.reg .rsp) room x → L x) →
      img s.rip = some (.instr i next) → i ≠ .iretq →
      (∀ a ∈ reads i s, Live (fun x => L x ∨ G x) a) →
      Goes img room L G Q (exec i next s) → Goes img room L G Q s

variable {L : UInt64 → Prop} {calls : List (Call κ)}

theorem Goes.overwritten (h : Goes img room L G Q s) : ∀ x, Below (s.reg .rsp) room x → L x := by
  cases h <;> assumption

/-- The image without what stands at `stop`, so that runs end there. -/
def Image.upTo (img : Image κ) (stop : UInt64) : Image κ :=
  fun a => if a = stop then none else img a

theorem Image.upTo_of_ne {stop a : UInt64} (h : a ≠ stop) : img.upTo stop a = img a := if_neg h

/-- **Runs with interrupts**, up to dead bytes. -/
theorem Goes.run {stop : UInt64} (hquiet : Quiet G room irq) (hapart : ∀ x, L x → ¬ G x)
    (hQ : ∀ s, Q s → s.rip = stop) (hrun : Run (img.upTo stop) cfuns irq t calls u)
    (hgoes : Goes (img.upTo stop) room L G Q s) (hsame : Same (fun x => L x ∨ G x) s t) :
    ∃ s', Goes (img.upTo stop) room L G Q s' ∧ Same (fun x => L x ∨ G x) s' u := by
  induction hrun generalizing s with
  | refl t => exact ⟨s, hgoes, hsame⟩
  | @instr t u calls i next hi hne _ ih =>
      rw [hsame.rip] at hi
      cases hgoes with
      | done _ hq =>
          rw [hQ s hq, Image.upTo, if_pos rfl] at hi
          cases hi
      | @instr _ j next' hbelow hj hne' hlive hrest =>
          rw [hi] at hj
          injection hj with hj
          injection hj with hinstr hnext
          subst hinstr hnext
          exact ih hrest (hsame.exec i hlive next)
  | @cfun t t' u calls f hf hc _ ih =>
      rw [hsame.rip] at hf
      cases hgoes with
      | done _ hq =>
          rw [hQ s hq, Image.upTo, if_pos rfl] at hf
          cases hf
      | instr _ hj _ _ _ =>
          rw [hf] at hj
          cases hj
  | @irq t t' u calls hirq _ ih =>
      have hbelow := hgoes.overwritten
      rw [← hsame.reg] at hbelow
      have htrans := hquiet t t' hirq fun x hx => hapart x (hbelow x hx)
      exact ih hgoes
        (hsame.trans (htrans.same (fun x hx => .inl (hbelow x hx)) fun x hx => .inr hx))

/-- Code that has come to where its runs end has come to `Q`. -/
theorem Goes.at_stop {stop : UInt64} (h : Goes (img.upTo stop) room L G Q s) (hs : s.rip = stop) :
    Q s := by
  cases h with
  | done _ hq => exact hq
  | instr _ hi _ _ _ =>
      rw [hs, Image.upTo, if_pos rfl] at hi
      cases hi

/-- Left alone the code does get to `Q`. -/
theorem Goes.exists_run (h : Goes img room L G Q s) (cfuns : Behaviour κ) (irq : Cpu → Cpu → Prop) :
    ∃ t, Run img cfuns irq s [] t ∧ Q t := by
  induction h with
  | @done s _ hq => exact ⟨s, .refl s, hq⟩
  | instr _ hi hne _ _ ih =>
      obtain ⟨t, hrun, hq⟩ := ih
      exact ⟨t, .instr hi hne hrun, hq⟩

end Mcsos.X64
