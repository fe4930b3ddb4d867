import Mcsos.Lib.X64Irq

/-!
# Calls of C functions

What the calling convention of C promises to hand-written code: if a function is entered with the
direction flag clear, then when it has returned, the return address is off the stack, the
callee-saved registers are as before, and the memory is as before except for the bytes below the
stack pointer and those the function may change.
-/

namespace Mcsos.X64

open Stack

variable {κ : Type} {G : UInt64 → Prop} {size room : ℕ} {base : UInt64} {m₀ : Ram}
  {a : Abs} {e r : Cpu}

/-- The convention asks for the direction flag to be clear when a function is entered. -/
def DirectionClear (s : Cpu) : Prop := s.rflags &&& directionFlag = 0

/-- The registers that a C function leaves as they are. -/
def calleeSaved : List Reg := [.rbx, .rbp, .r12, .r13, .r14, .r15]

/-- A C function entered in the state `e` has returned in the state `r`; it used `room` bytes of the
stack, its return address included, and may have changed the bytes in `G`. -/
structure Returned (G : UInt64 → Prop) (room : ℕ) (e r : Cpu) : Prop where
  rip : r.rip = e.top
  rsp : r.reg .rsp = e.reg .rsp + 8
  saved : ∀ q ∈ calleeSaved, r.reg q = e.reg q
  cs : r.cs = e.cs
  ss : r.ss = e.ss
  mem : ∀ x, ¬ Below (e.reg .rsp + 8) room x → ¬ G x → r.mem x = e.mem x

/-- The same on the words of the stack. -/
structure ReturnsTo (a a' : Abs) : Prop where
  stack : a.stack = a'.rip :: a'.stack
  saved : ∀ q ∈ calleeSaved, a'.reg q = a.reg q
  cs : a'.cs = a.cs
  ss : a'.ss = a.ss

theorem calleeSaved_ne_rsp {q : Reg} (hq : q ∈ calleeSaved) : q ≠ .rsp := by
  rintro rfl
  exact absurd hq (by decide)

/-- A function that keeps the convention keeps the words of its caller. -/
theorem Returned.sim (hret : Returned G room e r) (hsim : Sim G size base m₀ a e)
    (hstack : a.stack ≠ []) (hroom : 8 * a.stack.length + room ≤ size) (hapart : Apart G base size)
    (hsize : size < 2 ^ 64) :
    ∃ a', ReturnsTo a a' ∧ Sim G size base m₀ a' r := by
  obtain ⟨addr, ws, hws⟩ := List.exists_cons_of_ne_nil hstack
  rw [hws, List.length_cons] at hroom
  have hrsp : e.reg .rsp + 8 = ptr base ws.length := by
    have hadd :=
      hsim.rsp_add (d := 8) (by decide) (by rw [hws, List.length_cons]; exact Nat.le_add_left _ _)
    rwa [hws] at hadd
  have hheld := hsim.stack
  rw [hws] at hheld
  have hbelow : ∀ x, Below (e.reg .rsp + 8) room x →
      8 * ws.length < (base - x).toNat ∧ (base - x).toNat ≤ 8 * ws.length + room := by
    intro x hx
    rw [hrsp] at hx
    exact (below_ptr_iff (by omega)).mp hx
  refine ⟨⟨r.reg, ws, addr, r.rflags, a.cs, a.ss⟩, ⟨hws, fun q hq => ?_, rfl, rfl⟩,
    ⟨fun q _ => rfl, ?_, ?_, rfl, hret.cs.trans hsim.cs, hret.ss.trans hsim.ss, ?_,
      fun x hx hG => ?_⟩⟩
  · exact (hret.saved q hq).trans (hsim.reg q (calleeSaved_ne_rsp hq))
  · rw [hret.rsp, hrsp]
    rfl
  · rw [hret.rip, hsim.top hws]
  · refine hheld.2.congr (by omega) fun x hx =>
      hret.mem x (fun hlow => ?_) (hapart x (hx.mono (by omega)))
    have hdeep := (hbelow x hlow).1
    have hhigh := hx.2
    omega
  · rw [hret.mem x (fun hlow => ?_) hG]
    · exact hsim.rest x hx hG
    · have hdeep := hbelow x hlow
      exact hx ⟨by omega, by omega⟩

/-- A function may also write a word of its caller, such as a field that it was given a pointer
to. -/
theorem Returned.sim_word {disp : UInt64}
    (hret : Returned (fun x => G x ∨ (x - (e.reg .rsp + 8 + disp)).toNat < 8) room e r)
    (hsim : Sim G size base m₀ a e) (hstack : a.stack ≠ [])
    (hroom : 8 * a.stack.length + room ≤ size) (hapart : Apart G base size) (hsize : size < 2 ^ 64)
    (hword : disp.toNat % 8 = 0) (hdisp : disp.toNat / 8 < a.stack.tail.length) :
    ∃ a', ReturnsTo a a' ∧ Sim G size base m₀
      { a' with stack := a'.stack.set (disp.toNat / 8) (r.mem.load (e.reg .rsp + 8 + disp)) }
        r := by
  -- with the old word put back, the function only keeps the convention
  let p := e.reg .rsp + 8 + disp
  let r₀ : Cpu := { r with mem := r.mem.store p (e.mem.load p) }
  have hkept : Returned G room e r₀ := by
    refine ⟨hret.rip, hret.rsp, hret.saved, hret.cs, hret.ss, fun x hx hG => ?_⟩
    by_cases hfield : (x - p).toNat < 8
    · change r.mem.store p (e.mem.load p) x = e.mem x
      rw [Ram.store, if_pos hfield, Ram.wordBytes_load _ _ hfield, Ram.add_ofNat_sub]
    · change r.mem.store p (e.mem.load p) x = e.mem x
      rw [Ram.store_of_far (Nat.not_lt.mp hfield)]
      exact hret.mem x hx fun h => h.elim hG hfield
  obtain ⟨a', hreturns, hsim'⟩ := hkept.sim hsim hstack hroom hapart hsize
  have htail : a.stack.tail = a'.stack := by rw [hreturns.stack, List.tail_cons]
  have hlen : a.stack.length = a'.stack.length + 1 := by rw [hreturns.stack, List.length_cons]
  have hset : Sim G size base m₀ { a' with
      stack := a'.stack.set (disp.toNat / 8) (r.mem.load p), rip := a'.rip } _ :=
    hsim'.set (by omega) hsize hword (htail ▸ hdisp) (r.mem.load p)
  have hmem : r₀.mem.store (r₀.reg .rsp + disp) (r.mem.load p) = r.mem := by
    change (r.mem.store p (e.mem.load p)).store (r.reg .rsp + disp) (r.mem.load p) = r.mem
    rw [hret.rsp, Ram.store_store, Ram.store_load]
  rw [hmem, ← hsim'.rip] at hset
  exact ⟨a', hreturns, hsim'.rip ▸ hset⟩

end Mcsos.X64
