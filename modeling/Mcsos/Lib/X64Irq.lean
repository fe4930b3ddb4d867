import Mcsos.Lib.Align
import Mcsos.Lib.X64Stack

/-!
# Interrupt handlers

A handler starts with what the processor pushed on its stack, and ends with `iretq`.  If its code
comes there with those words on the stack again and the registers as they were (`Restored`), the
interrupt is transparent.  Handlers may themselves be interrupted: `Nested n` are the interrupts
whose handlers are nested at most `n` deep, and an induction on `n` takes a property of one handler
to all of them (`nested_induction`).
-/

namespace Mcsos.X64

open Stack

variable {κ : Type} {img : Image κ} {cfuns : Behaviour κ} {irq : Cpu → Cpu → Prop}
  {G : UInt64 → Prop} {size room : ℕ} {base next : UInt64} {m₀ : Ram} {g : Gate}
  {err : Option UInt64} {s t d : Cpu} {a : Abs}

theorem toNat_aligned (s : Cpu) : (aligned s).toNat = (s.reg .rsp).toNat / 16 * 16 := by
  rw [aligned, UInt64.toNat_and]
  exact and_mask_eq (k := 4) (s.reg .rsp).toNat_lt (by decide)

/-- Bytes below the aligned stack pointer are bytes below the stack pointer itself. -/
theorem below_of_below_aligned {x : UInt64} (hsize : size + 15 < 2 ^ 64)
    (h : Below (aligned s) size x) :
    Below (s.reg .rsp) (size + 15) x := by
  obtain ⟨hpos, hle⟩ := h
  have hx := x.toNat_lt
  have hrsp := (s.reg .rsp).toNat_lt
  rw [UInt64.toNat_sub, toNat_aligned] at hpos hle
  rw [Below, UInt64.toNat_sub]
  omega

theorem Apart.mono {a : UInt64} {n k : ℕ} (h : Apart G a n) (hk : k ≤ n) : Apart G a k :=
  fun x hx => h x (hx.mono hk)

theorem Apart.aligned (h : Apart G (s.reg .rsp) (size + 15)) (hsize : size + 15 < 2 ^ 64) :
    Apart G (aligned s) size := fun x hx => h x (below_of_below_aligned hsize hx)

theorem Transparent.mono {n k : ℕ} (h : Transparent G n s t) (hn : n ≤ k) : Transparent G k s t :=
  ⟨h.reg, h.rip, h.rflags, h.cs, h.ss, fun x hx hG => h.mem x (fun hlow => hx (hlow.mono hn)) hG⟩

theorem Quiet.mono {n k : ℕ} (h : Quiet G n irq) (hn : n ≤ k) : Quiet G k irq :=
  fun s t hirq hapart => (h s t hirq (hapart.mono hn)).mono hn

/-! ### Delivery and return -/

/-- The state in which a handler starts. -/
def entry (g : Gate) (err : Option UInt64) (s : Cpu) : Abs where
  reg := s.reg
  stack := pushed s err
  rip := g.offset
  rflags := g.flags s.rflags
  cs := g.selector
  ss := s.ss

/-- The state in which the handler has to return: the words that the processor takes back are on the
stack. -/
structure Restored (img : Image κ) (s : Cpu) (a : Abs) : Prop where
  code : ∃ next, img a.rip = some (.instr .iretq next)
  stack : a.stack = pushed s none
  reg : ∀ r, r ≠ .rsp → a.reg r = s.reg r

theorem length_pushed_le (s : Cpu) (err : Option UInt64) : (pushed s err).length ≤ 6 := by
  cases err <;> simp [pushed]

/-- Words pushed one after the other, the last one of the list first. -/
theorem Sim.pushAll (h : Sim G size base m₀ a s) (ws : List UInt64) (hsize : size < 2 ^ 64)
    (hroom : 8 * (ws.length + a.stack.length) ≤ size) :
    Sim G size base m₀ { a with stack := ws ++ a.stack } (ws.foldr (fun w t => t.push w) s) := by
  induction ws with
  | nil => exact h
  | cons w ws ih =>
      rw [List.length_cons] at hroom
      have hrest := ih (by omega)
      have hpush := hrest.push (by simp only [List.length_append]; omega) hsize w
        (ws.foldr (fun w t => t.push w) s).rip
      have hrip := hrest.rip
      simp only [Abs.push, hrip] at hpush
      rw [List.foldr_cons, List.cons_append]
      convert hpush using 1
      rw [← hrip]
      rfl

theorem sim_entry (g : Gate) (err : Option UInt64) (s : Cpu) (hsize : size < 2 ^ 64)
    (hroom : 8 * 6 ≤ size) :
    Sim G size (aligned s) s.mem (entry g err s) (deliver g err s) := by
  have hstart : Sim G size (aligned s) s.mem ⟨s.reg, [], s.rip, s.rflags, s.cs, s.ss⟩
      (s.setReg .rsp (aligned s)) := by
    refine ⟨fun r hr => ?_, ?_, rfl, rfl, rfl, rfl, trivial, fun _ _ _ => rfl⟩
    · simp only [Cpu.setReg, Function.update_of_ne hr]
    · simp only [Cpu.setReg, Function.update_self, Abs.rsp, List.length_nil, ptr_zero]
  have hlen := length_pushed_le s err
  have hpushed := hstart.pushAll (pushed s err) hsize (by rw [List.length_nil]; omega)
  rw [List.append_nil] at hpushed
  have hss := hpushed.ss
  exact ⟨hpushed.reg, hpushed.rsp, rfl, rfl, rfl, hss, hpushed.stack, hpushed.rest⟩

theorem toUInt16_toUInt64 (v : UInt16) : v.toUInt64.toUInt16 = v := by simp

/-- The processor is back where the interrupt was, with the registers of `a`. -/
structure Resumed (G : UInt64 → Prop) (n : ℕ) (s : Cpu) (a : Abs) (t : Cpu) : Prop where
  reg : ∀ r, r ≠ .rsp → t.reg r = a.reg r
  rsp : t.reg .rsp = s.reg .rsp
  rip : t.rip = s.rip
  rflags : t.rflags = s.rflags
  cs : t.cs = s.cs
  ss : t.ss = s.ss
  mem : ∀ x, ¬ Below (s.reg .rsp) n x → ¬ G x → t.mem x = s.mem x

/-- `iretq` with the words of the interrupt on the stack. -/
theorem Sim.iretq (hsim : Sim G size (aligned s) s.mem a d) (hstack : a.stack = pushed s none)
    (hsize : size + 15 < 2 ^ 64) (next : UInt64) :
    Resumed G (size + 15) s a (X64.exec .iretq next d) := by
  simp only [pushed, Option.toList_none, List.nil_append] at hstack
  have hword : ∀ disp w : UInt64, disp.toNat % 8 = 0 → a.stack[disp.toNat / 8]? = some w →
      d.mem.load (d.reg .rsp + disp) = w := fun disp w hdisp hw => hsim.load hdisp hw
  refine ⟨fun r hr => ?_, ?_, hsim.top hstack, ?_, ?_, ?_, fun x hx hG => ?_⟩
  · simp only [X64.exec, Function.update_of_ne hr]
    exact hsim.reg r hr
  · simp only [X64.exec, Function.update_self]
    exact hword 24 _ (by decide) (by rw [hstack]; rfl)
  · exact hword 16 _ (by decide) (by rw [hstack]; rfl)
  · simp only [X64.exec]
    rw [hword 8 _ (by decide) (by rw [hstack]; rfl), toUInt16_toUInt64]
  · simp only [X64.exec]
    rw [hword 32 _ (by decide) (by rw [hstack]; rfl), toUInt16_toUInt64]
  · exact hsim.rest x (fun hlow => hx (below_of_below_aligned hsize hlow)) hG

/-- A handler that restores the registers is transparent. -/
theorem Resumed.transparent (h : Resumed G size s a t) (hrestored : Restored img s a) :
    Transparent G size s t := by
  refine ⟨?_, h.rip, h.rflags, h.cs, h.ss, h.mem⟩
  funext r
  by_cases hr : r = .rsp
  · rw [hr, h.rsp]
  · rw [h.reg r hr, hrestored.reg r hr]

/-- The delivery of an interrupt writes below the stack pointer. -/
theorem deliver_mem (g : Gate) (err : Option UInt64) (s : Cpu) (hsize : size < 2 ^ 64)
    (hroom : 8 * 6 ≤ size) {x : UInt64} (hx : ¬ Below (aligned s) size x) :
    (deliver g err s).mem x = s.mem x :=
  (sim_entry (G := fun _ => False) g err s hsize hroom).rest x hx not_false

/-! ### Handlers that call a function -/

/-- The code of the handler gets to the C function `f`, as `front` says. -/
structure GetsTo (img : Image κ) (size room : ℕ) (g : Gate) (err : Option UInt64) (s : Cpu) (f : κ)
    (front : Abs → Prop) : Prop where
  leads : Leads img (aligned s) size room front (entry g err s)
  call : ∀ a, front a → img a.rip = some (.cfun f)

/-- When the function has returned in the state `r`, the code goes on to the return from the
interrupt, as `back r` says. -/
structure GoesBack (img : Image κ) (cfuns : Behaviour κ) (irq : Cpu → Cpu → Prop)
    (G : UInt64 → Prop) (size room : ℕ) (s : Cpu) (f : κ) (front : Abs → Prop)
    (back : Cpu → Abs → Prop) : Prop where
  leads : ∀ a e r, front a → 8 * a.stack.length + room ≤ size →
    Sim G size (aligned s) s.mem a e → cfuns irq f e r →
    ∃ a', Leads img (aligned s) size room (back r) a' ∧ Sim G size (aligned s) s.mem a' r
  iretq : ∀ r a, back r a → ∃ next, img a.rip = some (.instr .iretq next)
  stack : ∀ r a, back r a → a.stack = pushed s none

variable {f f' : κ} {front : Abs → Prop} {back : Cpu → Abs → Prop} {calls : List (Call κ)} {e : Cpu}

/-- If nothing interrupts it any more, the handler gets to the function. -/
theorem GetsTo.exists_call (h : GetsTo img size room g err s f front)
    (hbefore : Run img cfuns irq (deliver g err s) [] d)
    (hsim : Sim G size (aligned s) s.mem (entry g err s) d) (hsize : size < 2 ^ 64) :
    ∃ e a, Run img cfuns irq (deliver g err s) [] e ∧ img e.rip = some (.cfun f) ∧ front a ∧
      8 * a.stack.length + room ≤ size ∧ Sim G size (aligned s) s.mem a e ∧
      ∀ x, ¬ Below (aligned s) size x → e.mem x = d.mem x := by
  obtain ⟨e, a, hrun, hfront, hfree, hsim', hmem⟩ := h.leads.exists_run cfuns irq hsize hsim
  exact ⟨e, a, hbefore.trans hrun, hsim'.rip ▸ h.call a hfront, hfront, hfree, hsim', hmem⟩

/-- The first C function to which the handler comes is this one. -/
theorem GetsTo.first (h : GetsTo img size room g err s f front) (hquiet : Quiet G room irq)
    (hapart : Apart G (aligned s) size) (hsize : size < 2 ^ 64) (hroom : 8 * 6 ≤ size)
    (hrun : Run img cfuns irq (deliver g err s) [] e) (hf : img e.rip = some (.cfun f')) :
    f' = f ∧ ∃ a, front a ∧ Sim G size (aligned s) s.mem a e := by
  obtain ⟨a, hleads, hsim⟩ := h.leads.run hquiet hapart hsize (ends_of_cfun h.call) hrun
    (sim_entry g err s hsize hroom)
  rw [hsim.rip] at hf
  have hfront := hleads.at_cfun hf
  have hsame := hf.symm.trans (h.call a hfront)
  injection hsame with hsame
  injection hsame with hfn
  exact ⟨hfn, a, hfront, hsim⟩

/-- **The rule of interrupt handlers.**  A handler whose code calls one function makes this one call
between its delivery and its return, whatever interrupts it; it resumes the interrupted code with
the registers that `back` says, and apart from its call it leaves data to interrupts. -/
theorem Handles.one_call (h : Handles img cfuns irq g err s calls t)
    (hto : GetsTo img size room g err s f front)
    (hback : GoesBack img cfuns irq G size room s f front back) (hquiet : Quiet G room irq)
    (hapart : Apart G (s.reg .rsp) (size + 15)) (hsize : size + 15 < 2 ^ 64)
    (hroom : 8 * 6 ≤ size) :
    ∃ e r a b, calls = [⟨f, e, r⟩] ∧ cfuns irq f e r ∧ front a ∧ 8 * a.stack.length + room ≤ size ∧
      Sim G size (aligned s) s.mem a e ∧ back r b ∧ Resumed G (size + 15) s b t ∧
      Follows G room irq s.mem e.mem ∧ Follows G room irq r.mem t.mem := by
  obtain ⟨d, next, hrun, hiret, rfl⟩ := h
  have hapart' := hapart.aligned hsize
  have hsize' : size < 2 ^ 64 := by omega
  have hentry : Sim G size (aligned s) s.mem (entry g err s) (deliver g err s) :=
    sim_entry g err s hsize' hroom
  obtain ⟨⟨f', e, r⟩, rest, rfl⟩ :=
    hto.leads.calls_of_iretq hquiet hapart' hsize' hto.call hentry hrun hiret
  obtain ⟨rfl, hcall, hfirst, hrest, a, hfront, hfree, hsim⟩ :=
    hto.leads.first_call hquiet hapart' hsize' hto.call hentry hrun
  obtain ⟨a', hleads, hsim'⟩ := hback.leads a e r hfront hfree hsim hcall
  obtain ⟨rfl, b, hb, hsimb⟩ :=
    hleads.no_calls hquiet hapart' hsize' (hback.iretq r) hsim' hrest hiret
  have hdelivered : ∀ x, G x → (deliver g err s).mem x = s.mem x :=
    fun x hx => deliver_mem g err s hsize' hroom fun hlow => hapart' x hlow hx
  refine ⟨e, r, a, b, rfl, hcall, hfront, hfree, hsim, hb,
    hsimb.iretq (hback.stack r b hb) hsize next, fun hdata hadvances => ?_,
    hleads.follows hquiet hapart' hsize' (ends_of_iretq (hback.iretq r)) hrest hsim'⟩
  rw [← hdata _ _ hdelivered]
  exact hto.leads.follows hquiet hapart' hsize' (ends_of_cfun hto.call) hfirst hentry
    hdata hadvances

/-- If nothing interrupts it any more, the handler returns, if the function does. -/
theorem GetsTo.exists_handles (hto : GetsTo img size room g err s f front)
    (hback : GoesBack img cfuns irq G size room s f front back)
    (hbefore : Run img cfuns irq (deliver g err s) [] d)
    (hsim : Sim G size (aligned s) s.mem (entry g err s) d) (hsize : size < 2 ^ 64)
    (hreturn : ∀ a e, front a → Sim G size (aligned s) s.mem a e → ∃ r, cfuns irq f e r) :
    ∃ e r t, Handles img cfuns irq g err s [⟨f, e, r⟩] t ∧
      (∀ x, ¬ Below (aligned s) size x → e.mem x = d.mem x) ∧
      ∀ x, ¬ Below (aligned s) size x → t.mem x = r.mem x := by
  obtain ⟨e, a, hrun, hf, hfront, hfree, hsim, hmem⟩ := hto.exists_call hbefore hsim hsize
  obtain ⟨r, hcall⟩ := hreturn a e hfront hsim
  obtain ⟨a', hleads, hsim'⟩ := hback.leads a e r hfront hfree hsim hcall
  obtain ⟨d', b, hrest, hb, -, hsimb, hmem'⟩ := hleads.exists_run cfuns irq hsize hsim'
  obtain ⟨next, hiret⟩ := hback.iretq r b hb
  exact ⟨e, r, exec .iretq next d',
    ⟨d', next, hrun.trans (.cfun hf hcall hrest), hsimb.rip ▸ hiret, rfl⟩, hmem, hmem'⟩

/-! ### Interrupted handlers -/

/-- The interrupts that are accepted, with their gates and error codes. -/
abbrev Accepts : Type := Cpu → Gate → Option UInt64 → Prop

/-- Interrupts whose handlers are nested at most `n` deep. -/
def Nested (img : Image κ) (cfuns : Behaviour κ) (accepts : Accepts) : ℕ → Cpu → Cpu → Prop
  | 0 => fun _ _ => False
  | n + 1 => fun s t =>
    ∃ g err calls, accepts s g err ∧ Handles img cfuns (Nested img cfuns accepts n) g err s calls t

/-- The bytes of the stack that interrupts nested `n` deep may use, when each takes `frame`
bytes. -/
def depthBytes (frame : ℕ) (n : ℕ) : ℕ := n * frame

/-- **The induction on the depth.**  What holds of a handled interrupt as long as it holds of those
in its handler holds of all, if their handlers have room on the stack. -/
theorem nested_induction {accepts : Accepts} {frame : ℕ} {P : ℕ → Cpu → Cpu → Prop}
    (hstep : ∀ (n : ℕ) (s t : Cpu) (g : Gate) (err : Option UInt64) (calls : List (Call κ)),
      depthBytes frame (n + 1) < 2 ^ 64 → (∀ s t, Nested img cfuns accepts n s t → P n s t) →
      accepts s g err → Handles img cfuns (Nested img cfuns accepts n) g err s calls t →
      P (n + 1) s t)
    (n : ℕ) (hn : depthBytes frame n < 2 ^ 64) :
    ∀ s t, Nested img cfuns accepts n s t → P n s t := by
  induction n with
  | zero => exact fun s t hirq => hirq.elim
  | succ n ih =>
      have hle : depthBytes frame n ≤ depthBytes frame (n + 1) :=
        Nat.mul_le_mul_right frame (Nat.le_succ n)
      rintro s t ⟨g, err, calls, haccepts, hhandles⟩
      exact hstep n s t g err calls hn (ih (Nat.lt_of_le_of_lt hle hn)) haccepts hhandles

end Mcsos.X64
