import Mathlib.Logic.Relation
import Mcsos.Lib.SysV
import Mcsos.Sched.Queue
import Mcsos.Sched.Switch

/-!
# Threads that switch

To a thread that calls it, the context switch should look like any call of a C function: some time
later it returns, with the stack and the callee-saved registers as they were.  `switch_returns` says
that it does, whatever the other threads do in the meantime, however often they switch among
themselves, and wherever interrupts come.

A new thread has never called the switch.  `mcsos_thread_prepare` fills in the stack pointer of its
context only; where the first switch to such a thread goes is what `prepared_thread_start` says.
-/

namespace Mcsos.Sched

open X64 Stack Relation

variable {κ τ : Type} {img : Image κ} {cfuns : Behaviour κ} {irq : Cpu → Cpu → Prop}
  {G : UInt64 → Prop} {start stop resume x : UInt64} {room : ℕ} {m₁ m₂ : Ram} {e t : Cpu}

/-! ### Threads -/

/-- Where the contexts and the stacks of the threads are: apart from each other, and from the data
of interrupts. -/
structure Layout (τ : Type) (G : UInt64 → Prop) where
  context : τ → UInt64
  own : τ → UInt64 → Prop
  context_apart : ∀ i j, i ≠ j → ∀ x, InContext (context i) x → ¬ InContext (context j) x
  own_apart : ∀ i j, i ≠ j → ∀ x, own i x → ¬ own j x
  own_context : ∀ i j x, own i x → ¬ InContext (context j) x
  own_quiet : ∀ i x, own i x → ¬ G x
  context_quiet : ∀ i x, InContext (context i) x → ¬ G x

/-- The processor, the thread that it runs, and the threads that there are. -/
structure Machine (τ : Type) where
  cpu : Cpu
  current : τ
  alive : τ → Prop

/-- The thread `i` may be switched to: interrupts on the stack that its context names stay on its
stack. -/
def Parked (lay : Layout τ G) (room : ℕ) (mem : Ram) (i : τ) : Prop :=
  ∀ x, Below (Context.read mem (lay.context i)).rsp room x → lay.own i x

/-- In the state `e`, the thread `i` has called the switch to the thread `j`. -/
structure Calls (lay : Layout τ G) (room : ℕ) (start : UInt64) (i j : τ) (e : Cpu) : Prop where
  rip : e.rip = start
  rdi : e.reg .rdi = lay.context i
  rsi : e.reg .rsi = lay.context j
  stack : ∀ x, Below (e.reg .rsp) room x → lay.own i x
  ret : ∀ x, (x - e.reg .rsp).toNat < 8 → lay.own i x

/-- What can happen: the current thread does something of its own, starts a thread, or calls the
switch. -/
inductive Step (lay : Layout τ G) (room : ℕ) (start : UInt64) (switches : Cpu → Cpu → Prop) :
    Machine τ → Machine τ → Prop where
  | own {m : Machine τ} {t : Cpu} :
      (∀ k x, m.alive k → k ≠ m.current → lay.own k x ∨ InContext (lay.context k) x →
        t.mem x = m.cpu.mem x) →
      t.cs = m.cpu.cs → t.ss = m.cpu.ss → Step lay room start switches m { m with cpu := t }
  | create {m : Machine τ} (k : τ) : Parked lay room m.cpu.mem k →
      Step lay room start switches m { m with alive := fun i => i = k ∨ m.alive i }
  | switch {m : Machine τ} {t : Cpu} (j : τ) : m.alive j → Calls lay room start m.current j m.cpu →
      switches m.cpu t → Step lay room start switches m { m with cpu := t, current := j }

/-- The threads that do not run may be switched to. -/
structure Ready (lay : Layout τ G) (room : ℕ) (m : Machine τ) : Prop where
  current : m.alive m.current
  parked : ∀ i, m.alive i → i ≠ m.current → Parked lay room m.cpu.mem i

section

variable {lay : Layout τ G} {m m' m₀ : Machine τ} {i j : τ}

theorem Calls.loadedContext_self (h : Calls lay room start i i e) :
    loadedContext resume e = .of resume e := by
  rw [loadedContext, h.rsi, ← h.rdi, read_saveContext]

theorem Calls.loadedContext_of_ne (h : Calls lay room start i j e) (hij : i ≠ j) :
    loadedContext resume e = Context.read e.mem (lay.context j) := by
  rw [loadedContext, h.rsi]
  refine Context.read_congr fun x hx => saveContext_of_apart ?_
  rw [h.rdi]
  exact lay.context_apart j i hij.symm x hx

/-- The stack on which the switch goes on is that of the new thread. -/
theorem Calls.below_loaded (h : Calls lay room start i j e)
    (hparked : i ≠ j → Parked lay room e.mem j) :
    ∀ x, Below (loadedContext resume e).rsp room x → lay.own j x := by
  intro x hx
  by_cases hij : i = j
  · subst hij
    rw [h.loadedContext_self] at hx
    exact h.stack x hx
  · rw [h.loadedContext_of_ne hij] at hx
    exact hparked hij x hx

theorem Calls.live (h : Calls lay room start i j e) (hparked : i ≠ j → Parked lay room e.mem j) :
    ∀ x, InContext (e.reg .rsi) x →
      ¬ (Below (e.reg .rsp) room x ∨ Below (loadedContext resume e).rsp room x) ∧ ¬ G x := by
  intro x hx
  rw [h.rsi] at hx
  refine ⟨?_, lay.context_quiet j x hx⟩
  rintro (hlow | hlow)
  · exact lay.own_context i j x (h.stack x hlow) hx
  · exact lay.own_context j j x (h.below_loaded hparked x hlow) hx

/-- What a switch between two threads does. -/
theorem Calls.switched (h : Calls lay room start i j e) (hparked : i ≠ j → Parked lay room e.mem j)
    (hloaded : SwitchLoaded img start stop resume) (hquiet : Quiet G room irq)
    (hswitch : Switches img cfuns irq stop resume e t) : Switched G room resume e t :=
  hswitch.switched hloaded hquiet h.rip (fun x hx => lay.own_quiet i x (h.stack x hx))
    (fun x hx => lay.own_quiet j x (h.below_loaded hparked x hx)) (h.live hparked)

/-- It leaves the stacks and contexts of other threads alone. -/
theorem Switched.frame (hs : Switched G room resume e t) (h : Calls lay room start i j e)
    (hparked : i ≠ j → Parked lay room e.mem j) {k : τ} (hki : k ≠ i) (hkj : k ≠ j) {x : UInt64}
    (hx : lay.own k x ∨ InContext (lay.context k) x) : t.mem x = e.mem x := by
  have hG : ¬ G x := hx.elim (lay.own_quiet k x) (lay.context_quiet k x)
  have happart : ∀ l, k ≠ l → ¬ lay.own l x := fun l hl hown =>
    hx.elim (fun hk => lay.own_apart k l hl x hk hown) (lay.own_context l k x hown)
  have hcontext : ¬ InContext (e.reg .rdi) x := by
    rw [h.rdi]
    exact fun hin => hx.elim (fun hk => lay.own_context k i x hk hin) fun hk =>
      lay.context_apart k i hki x hk hin
  rw [hs.mem x (fun hlow => happart i hki (h.stack x hlow))
    (fun hlow => happart j hkj (h.below_loaded hparked x hlow)) hG, saveContext_of_apart hcontext]

/-- The memory of a thread that called the switch: its context is saved, and its own stack is as it
was. -/
theorem Switched.left (hs : Switched G room resume e t) (h : Calls lay room start i j e)
    (hparked : i ≠ j → Parked lay room e.mem j) (hij : i ≠ j) :
    Context.read t.mem (lay.context i) = .of resume e ∧
      ∀ x, lay.own i x → ¬ Below (e.reg .rsp) room x → t.mem x = e.mem x := by
  have hnew : ∀ x, lay.own i x ∨ InContext (lay.context i) x →
      ¬ Below (loadedContext resume e).rsp room x :=
    fun x hx hlow => hx.elim (fun hi => lay.own_apart i j hij x hi (h.below_loaded hparked x hlow))
      (lay.own_context j i x (h.below_loaded hparked x hlow))
  constructor
  · rw [← read_saveContext, h.rdi]
    refine Context.read_congr fun x hx => hs.mem x (fun hlow => ?_) (hnew x (.inr hx))
      (lay.context_quiet i x hx)
    exact lay.own_context i i x (h.stack x hlow) hx
  · intro x hx hlow
    rw [hs.mem x hlow (hnew x (.inl hx)) (lay.own_quiet i x hx), saveContext_of_apart]
    rw [h.rdi]
    exact lay.own_context i i x hx

theorem Parked.congr (h : Parked lay room m₁ i)
    (hsame : ∀ x, InContext (lay.context i) x → m₂ x = m₁ x) :
    Parked lay room m₂ i := by
  rw [Parked, Context.read_congr hsame]
  exact h

/-- **Threads that do not run may be switched to**, after every step. -/
theorem Ready.step (hloaded : SwitchLoaded img start stop resume) (hquiet : Quiet G room irq)
    (hready : Ready lay room m)
    (hstep : Step lay room start (Switches img cfuns irq stop resume) m m') :
    Ready lay room m' := by
  cases hstep with
  | own hmem _ _ =>
      exact ⟨hready.current, fun k hk hne => (hready.parked k hk hne).congr fun x hx => hmem k x hk
        hne (.inr hx)⟩
  | create k hparked =>
      refine ⟨.inr hready.current, fun l hl hne => ?_⟩
      rcases hl with rfl | hl
      · exact hparked
      · exact hready.parked l hl hne
  | switch j hj hcalls hswitch =>
      have hparked : m.current ≠ j → Parked lay room m.cpu.mem j :=
        fun hne => hready.parked j hj hne.symm
      have hs := hcalls.switched hparked hloaded hquiet hswitch
      refine ⟨hj, fun k hk hne => ?_⟩
      by_cases hkc : k = m.current
      · subst hkc
        have hread := (hs.left hcalls hparked hne).1
        rw [Parked]
        simp only [hread]
        exact hcalls.stack
      · exact (hready.parked k hk hkc).congr fun x hx => hs.frame hcalls hparked hkc hne (.inr hx)

/-- The thread `i` called the switch in the state `e` and has not returned yet. -/
structure Away (lay : Layout τ G) (room : ℕ) (resume : UInt64) (i : τ) (e : Cpu) (m : Machine τ) :
    Prop where
  current : m.current ≠ i
  alive : m.alive i
  context : Context.read m.cpu.mem (lay.context i) = .of resume e
  mem : ∀ x, lay.own i x → ¬ Below (e.reg .rsp) room x → m.cpu.mem x = e.mem x
  cs : m.cpu.cs = e.cs
  ss : m.cpu.ss = e.ss

/-- The switch takes the thread away. -/
theorem away_of_step (hloaded : SwitchLoaded img start stop resume) (hquiet : Quiet G room irq)
    (hready : Ready lay room m)
    (hstep : Step lay room start (Switches img cfuns irq stop resume) m m')
    (hne : m'.current ≠ m.current) :
    Away lay room resume m.current m.cpu m' ∧ Calls lay room start m.current m'.current m.cpu := by
  cases hstep with
  | own _ _ _ => exact absurd rfl hne
  | create k _ => exact absurd rfl hne
  | switch j hj hcalls hswitch =>
      have hparked : m.current ≠ j → Parked lay room m.cpu.mem j :=
        fun h => hready.parked j hj h.symm
      have hs := hcalls.switched hparked hloaded hquiet hswitch
      obtain ⟨hcontext, hmem⟩ := hs.left hcalls hparked hne.symm
      exact ⟨⟨hne, hready.current, hcontext, hmem, hs.cs, hs.ss⟩, hcalls⟩

/-- It stays as it was left while other threads run. -/
theorem Away.step (haway : Away lay room resume i e m)
    (hloaded : SwitchLoaded img start stop resume)
    (hquiet : Quiet G room irq) (hready : Ready lay room m)
    (hstep : Step lay room start (Switches img cfuns irq stop resume) m m') (hne : m'.current ≠ i) :
    Away lay room resume i e m' := by
  have hic : i ≠ m.current := haway.current.symm
  cases hstep with
  | own hmem hcs hss =>
      refine ⟨hne, haway.alive, ?_, fun x hx hlow => ?_, hcs.trans haway.cs, hss.trans haway.ss⟩
      · rw [← haway.context]
        exact Context.read_congr fun x hx => hmem i x haway.alive hic (.inr hx)
      · rw [← haway.mem x hx hlow]
        exact hmem i x haway.alive hic (.inl hx)
  | create k _ => exact ⟨hne, .inr haway.alive, haway.context, haway.mem, haway.cs, haway.ss⟩
  | switch j hj hcalls hswitch =>
      have hparked : m.current ≠ j → Parked lay room m.cpu.mem j :=
        fun h => hready.parked j hj h.symm
      have hs := hcalls.switched hparked hloaded hquiet hswitch
      refine ⟨hne, haway.alive, ?_, fun x hx hlow => ?_, hs.cs.trans haway.cs, hs.ss.trans haway.ss⟩
      · rw [← haway.context]
        exact Context.read_congr fun x hx => hs.frame hcalls hparked hic (Ne.symm hne) (.inr hx)
      · rw [← haway.mem x hx hlow]
        exact hs.frame hcalls hparked hic (Ne.symm hne) (.inl hx)

/-- The return address of a call is not overwritten by interrupts. -/
theorem not_below_of_word (hroom : room + 8 < 2 ^ 64) {a : UInt64} (hx : (x - a).toNat < 8) :
    ¬ Below a room x := by
  rintro ⟨hpos, hle⟩
  have ha := a.toNat_lt
  have hxlt := x.toNat_lt
  rw [UInt64.toNat_sub] at hx hpos hle
  omega

/-- Bytes below the stack pointer are below it too when the return address is popped. -/
theorem below_add_word (hroom : room + 8 < 2 ^ 64) {a : UInt64} (hx : Below a room x) :
    Below (a + 8) (room + 8) x := by
  obtain ⟨hpos, hle⟩ := hx
  have ha := a.toNat_lt
  have hxlt := x.toNat_lt
  have h8 : (8 : UInt64).toNat = 8 := rfl
  rw [UInt64.toNat_sub] at hpos hle
  rw [Below, UInt64.toNat_sub, UInt64.toNat_add, h8]
  omega

/-- When it is switched to again, its call returns. -/
theorem Away.back (haway : Away lay room resume i e m) (hcalls : Calls lay room start i j e)
    (hroom : room + 8 < 2 ^ 64) (hloaded : SwitchLoaded img start stop resume)
    (hquiet : Quiet G room irq) (hready : Ready lay room m)
    (hstep : Step lay room start (Switches img cfuns irq stop resume) m m') (hback : m'.current = i)
    (next : UInt64) :
    m'.cpu.rip = resume ∧ Returned (fun x => ¬ lay.own i x) (room + 8) e
      (exec .ret next m'.cpu) := by
  have hic : m.current ≠ i := haway.current
  cases hstep with
  | own _ _ _ => exact absurd hback hic
  | create k _ => exact absurd hback hic
  | @switch t j' hj' hcalls' hswitch =>
      obtain rfl : j' = i := hback
      have hparked : m.current ≠ j' → Parked lay room m.cpu.mem j' :=
        fun h => hready.parked j' hj' h.symm
      have hs := hcalls'.switched hparked hloaded hquiet hswitch
      have hloadedContext : loadedContext resume m.cpu = .of resume e := by
        rw [hcalls'.loadedContext_of_ne hic, haway.context]
      have hnotin : ∀ x, lay.own j' x → ¬ InContext (m.cpu.reg .rdi) x := by
        rw [hcalls'.rdi]
        exact fun x hx => lay.own_context j' m.current x hx
      have hregs := hs.regs
      rw [hloadedContext] at hregs
      have hmem : ∀ x, lay.own j' x → ¬ Below (e.reg .rsp) room x → t.mem x = e.mem x := by
        intro x hx hlow
        have hother : ¬ Below (m.cpu.reg .rsp) room x :=
          fun h => lay.own_apart j' m.current hic.symm x hx (hcalls'.stack x h)
        rw [hs.mem x hother (by rw [hloadedContext]; exact hlow) (lay.own_quiet j' x hx),
          saveContext_of_apart (hnotin x hx), haway.mem x hx hlow]
      have hrsp : t.reg .rsp = e.reg .rsp :=
        hregs (.rsp, e.reg .rsp) (by simp [Context.regs, Context.of])
      have htop : t.top = e.top := by
        rw [Cpu.top, Cpu.top, hrsp]
        refine Ram.load_congr fun k hk => ?_
        have hword : (e.reg .rsp + UInt64.ofNat k - e.reg .rsp).toNat < 8 := by
          rw [Ram.toNat_add_sub_self (by omega)]
          exact hk
        exact hmem _ (hcalls.ret _ hword) (not_below_of_word hroom hword)
      refine ⟨by rw [hs.rip, hloadedContext]; rfl, htop, ?_, fun q hq => ?_, hs.cs.trans haway.cs,
        hs.ss.trans haway.ss, fun x hlow hx => ?_⟩
      · simp only [exec, Cpu.jump, Cpu.setReg, Function.update_self, hrsp]
      · simp only [exec, Cpu.jump, Cpu.setReg, Function.update_of_ne (calleeSaved_ne_rsp hq)]
        refine hregs (q, e.reg q) ?_
        simp only [calleeSaved, List.mem_cons, List.not_mem_nil, or_false] at hq
        rcases hq with rfl | rfl | rfl | rfl | rfl | rfl <;> simp [Context.regs, Context.of]
      · exact hmem x (not_not.mp hx) fun h => hlow (below_add_word hroom h)

/-! ### Runs -/

/-- Runs of the threads from one that is alone. -/
theorem Ready.run {boot : Machine τ} (hloaded : SwitchLoaded img start stop resume)
    (hquiet : Quiet G room irq) (hboot : ∀ i, boot.alive i ↔ i = boot.current)
    (hrun : ReflTransGen (Step lay room start (Switches img cfuns irq stop resume)) boot m) :
    Ready lay room m := by
  induction hrun with
  | refl => exact ⟨(hboot _).mpr rfl, fun i hi hne => absurd ((hboot i).mp hi) hne⟩
  | tail _ hstep ih => exact ih.step hloaded hquiet hstep

/-- Steps in which the thread `i` does not come back. -/
def Elsewhere (lay : Layout τ G) (room : ℕ) (start : UInt64) (switches : Cpu → Cpu → Prop) (i : τ)
    (m m' : Machine τ) : Prop :=
  Step lay room start switches m m' ∧ m'.current ≠ i

theorem Away.run (haway : Away lay room resume i e m) (hloaded : SwitchLoaded img start stop resume)
    (hquiet : Quiet G room irq) (hready : Ready lay room m)
    (hrun : ReflTransGen (Elsewhere lay room start (Switches img cfuns irq stop resume) i) m m') :
    Away lay room resume i e m' ∧ Ready lay room m' := by
  induction hrun with
  | refl => exact ⟨haway, hready⟩
  | tail _ hstep ih =>
      exact ⟨ih.1.step hloaded hquiet ih.2 hstep.1 hstep.2, ih.2.step hloaded hquiet hstep.1⟩

/-- **To each thread the switch is a call that returns.**  In every run, let a thread call the
switch in the state `m₀.cpu`, and let it be switched to again at last.  Then the instruction behind
its jump is reached, and its `ret` returns from the call as the calling convention asks: to the
return address, with the stack pointer and the callee-saved registers as they were, and with the
thread's own stack untouched. -/
theorem switch_returns (hroom : room + 8 < 2 ^ 64) (hloaded : SwitchLoaded img start stop resume)
    (hquiet : Quiet G room irq) {boot m₀ m₁ m m' : Machine τ}
    (hboot : ∀ i, boot.alive i ↔ i = boot.current)
    (hrun : ReflTransGen (Step lay room start (Switches img cfuns irq stop resume)) boot m₀)
    (hleave : Step lay room start (Switches img cfuns irq stop resume) m₀ m₁)
    (hne : m₁.current ≠ m₀.current)
    (haway : ReflTransGen (Elsewhere lay room start (Switches img cfuns irq stop resume) m₀.current)
    m₁ m) (hback : Step lay room start (Switches img cfuns irq stop resume) m m')
    (hcur : m'.current = m₀.current) (next : UInt64) :
    m'.cpu.rip = resume ∧ Returned (fun x => ¬ lay.own m₀.current x) (room + 8) m₀.cpu
      (exec .ret next m'.cpu) := by
  have hready := Ready.run hloaded hquiet hboot hrun
  obtain ⟨hleft, hcalls⟩ := away_of_step hloaded hquiet hready hleave hne
  obtain ⟨hlast, hready'⟩ := hleft.run hloaded hquiet (hready.step hloaded hquiet hleave) haway
  exact hlast.back hcalls hroom hloaded hquiet hready' hback hcur next

/-! ### New threads -/

/-- `mcsos_thread_prepare`, on the memory of the thread at `t`. -/
def threadPrepare (t name entry arg stack stackSize id : UInt64) (mem : Ram) : Status × Ram :=
  if t = null then (.err, mem)
  else
    let mem := mem.store (t + 0) name
    let mem := mem.store (t + 88) entry
    let mem := mem.store (t + 96) arg
    let mem := mem.store (t + 104) stack
    let mem := mem.store (t + 112) stackSize
    let mem := mem.store (t + 8) id
    let mem := mem.store32 (t + 16) 1
    let mem := mem.store (t + 128) 0
    (.ok, mem.store (t + 24) ((stack + stackSize) &&& ~~~0xF))

/-- Of the context it fills in the stack pointer only. -/
theorem threadPrepare_context {thread : UInt64} (hthread : thread ≠ null)
    (name entry arg stack stackSize id : UInt64) (mem : Ram) :
    Context.read (threadPrepare thread name entry arg stack stackSize id mem).2 (thread + 24) =
      { Context.read mem (thread + 24) with rsp := (stack + stackSize) &&& ~~~0xF } := by
  rw [threadPrepare, if_neg hthread]
  have hword : ∀ d : UInt64, thread + 24 + d = thread + (24 + d) := fun d => UInt64.add_assoc ..
  simp only [Context.read, Context.mk.injEq, hword]
  refine ⟨Ram.load_store_self _ _ _, ?_, ?_, ?_, ?_, ?_, ?_, ?_⟩ <;>
    rw [Ram.load_store_add (by decide) (by decide), Ram.load_store_add (by decide) (by decide),
      Ram.load_store32_add (by decide) (by decide), Ram.load_store_add (by decide) (by decide),
      Ram.load_store_add (by decide) (by decide), Ram.load_store_add (by decide) (by decide),
      Ram.load_store_add (by decide) (by decide), Ram.load_store_add (by decide) (by decide),
      Ram.load_store_add (by decide) (by decide)]

/-- **New threads do not start at their entry.**  In every run, the first switch to a thread whose
context is as `mcsos_thread_prepare` left it goes to the address that was in its structure before,
on the new stack; neither the entry nor the argument has a part in it. -/
theorem prepared_thread_start (hloaded : SwitchLoaded img start stop resume)
    (hquiet : Quiet G room irq) {boot m m' : Machine τ}
    (hboot : ∀ i, boot.alive i ↔ i = boot.current)
    (hrun : ReflTransGen (Step lay room start (Switches img cfuns irq stop resume)) boot m)
    {thread : UInt64} (hthread : thread ≠ null) (name entry arg stack stackSize id : UInt64)
    (mem₀ : Ram) (hcontext : lay.context m'.current = thread + 24)
    (hprepared : ∀ x, InContext (thread + 24) x →
      m.cpu.mem x = (threadPrepare thread name entry arg stack stackSize id mem₀).2 x)
    (hstep : Step lay room start (Switches img cfuns irq stop resume) m m')
    (hne : m'.current ≠ m.current) :
    m'.cpu.rip = mem₀.load (thread + 80) ∧ m'.cpu.reg .rsp = (stack + stackSize) &&& ~~~0xF ∧
      m'.cpu.reg .rdi = lay.context m.current := by
  have hready := Ready.run hloaded hquiet hboot hrun
  cases hstep with
  | own _ _ _ => exact absurd rfl hne
  | create k _ => exact absurd rfl hne
  | switch j hj hcalls hswitch =>
      have hs := hcalls.switched (fun h => hready.parked j hj h.symm) hloaded hquiet hswitch
      have hread : loadedContext resume m.cpu =
          { Context.read mem₀ (thread + 24) with rsp := (stack + stackSize) &&& ~~~0xF } := by
        rw [hcalls.loadedContext_of_ne (Ne.symm hne), hcontext, Context.read_congr hprepared,
          threadPrepare_context hthread]
      have hregs := hs.regs
      rw [hread] at hregs
      refine ⟨?_, hregs (.rsp, _) (by simp [Context.regs]), hs.rdi.trans hcalls.rdi⟩
      rw [hs.rip, hread]
      simp only [Context.read]
      rw [UInt64.add_assoc]
      rfl

end

/-! ### Two threads -/

/-- The switch in an image of its own. -/
def switchBlocks (_ : ℕ) : Empty ⊕ List Instr := .inr (switchCode 17 ++ [.jmpMem 56 .rsi, .ret])

theorem switchBlocks_loaded : SwitchLoaded (Image.ofBlocks switchBlocks) 0 16 17 where
  code :=
    ⟨1, rfl, 2, rfl, 3, rfl, 4, rfl, 5, rfl, 6, rfl, 7, rfl, 8, rfl, 9, rfl, 10, rfl, 11, rfl, 12,
    rfl, 13, rfl, 14, rfl, 15, rfl, 16, rfl, rfl⟩
  jump := rfl
  ret := ⟨18, rfl⟩

/-- The byte `x` is in the context at the address `p`, which does not lie at the end of the
memory. -/
theorem inContext_iff {p x : UInt64} (hp : p.toNat + 64 ≤ 2 ^ 64) :
    InContext p x ↔ p.toNat ≤ x.toNat ∧ x.toNat < p.toNat + 64 := by
  have hx := x.toNat_lt
  rw [InContext, UInt64.toNat_sub]
  omega

/-- Interrupts count themselves here. -/
def pairCount : UInt64 := 0x3000

def PairData (x : UInt64) : Prop := (x - pairCount).toNat < 8

/-- They push the address that they come from. -/
def pairIrq (s t : Cpu) : Prop :=
  t = { s with
    mem := (s.mem.store (s.reg .rsp - 8) s.rip).store pairCount (s.mem.load pairCount + 1) }

theorem pair_quiet : Quiet PairData 64 pairIrq := by
  rintro s t rfl -
  refine ⟨rfl, rfl, rfl, rfl, rfl, fun x hx hdata => ?_⟩
  refine (Ram.store_of_far (Nat.not_lt.mp hdata) _).trans (Ram.store_of_far ?_ _)
  by_contra hnear
  refine hx ?_
  have hxlt := x.toNat_lt
  have hrsp := (s.reg .rsp).toNat_lt
  rw [UInt64.toNat_sub, UInt64.toNat_sub] at hnear
  rw [Below, UInt64.toNat_sub]
  simp only [UInt64.reduceToNat] at hnear
  omega

/-- Two threads with a stack of 64 KiB each. -/
def pairLayout : Layout Bool PairData where
  context i := if i then 0x2000 else 0x1000
  own i x := x.toNat / 0x10000 = if i then 2 else 1
  context_apart i j hij x hi hj := by
    cases i <;> cases j <;> simp only [ne_eq, not_true_eq_false, if_true, Bool.false_eq_true,
      if_false] at hij hi hj <;>
      rw [inContext_iff (by decide)] at hi hj <;> simp at hi hj <;> omega
  own_apart i j hij x hi hj := by
    cases i <;> cases j <;> simp only [ne_eq, not_true_eq_false, if_true, Bool.false_eq_true,
      if_false] at hij hi hj <;>
      omega
  own_context i j x hi hj := by
    cases i <;> cases j <;> simp only [if_true, Bool.false_eq_true, if_false] at hi hj <;>
      rw [inContext_iff (by decide)] at hj <;> simp at hj <;> omega
  own_quiet i x hi hdata := by
    have hxlt := x.toNat_lt
    rw [PairData, pairCount, UInt64.toNat_sub] at hdata
    simp only [UInt64.reduceToNat] at hdata
    cases i <;> simp only [if_true, Bool.false_eq_true, if_false] at hi <;> omega
  context_quiet i x hi hdata := by
    have hxlt := x.toNat_lt
    rw [PairData, pairCount, UInt64.toNat_sub] at hdata
    simp only [UInt64.reduceToNat] at hdata
    cases i <;> simp only [if_true, Bool.false_eq_true, if_false] at hi <;>
      rw [inContext_iff (by decide)] at hi <;> simp at hi <;> omega

/-- The first thread has set up a context for the second one and calls the switch. -/
def pairCpu : Cpu where
  reg := fun r => match r with
    | .rsp => 0x18000
    | .rdi => 0x1000
    | .rsi => 0x2000
    | _ => 7
  rip := 0
  rflags := 0x2
  cs := 0x28
  ss := 0x30
  mem := (threadPrepare 0x1FE8 0 0x500 0 0x20000 0x10000 1 fun _ => 0).2

/-- Calls of the switch, under these interrupts. -/
abbrev PairSwitches : Cpu → Cpu → Prop :=
  Switches (Image.ofBlocks switchBlocks) (fun _ _ _ _ => False) pairIrq 16 17

/-- The steps of the two threads. -/
abbrev PairStep : Machine Bool → Machine Bool → Prop := Step pairLayout 64 0 PairSwitches

/-- A switch does not count. -/
theorem load_pairCount {e : Cpu} {i : Bool} (hrdi : e.reg .rdi = pairLayout.context i) :
    (saveContext 17 e).load pairCount = e.mem.load pairCount := by
  refine Ram.load_congr fun k hk => saveContext_of_apart fun hin => ?_
  rw [hrdi] at hin
  refine pairLayout.context_quiet i _ hin ?_
  rw [PairData, Ram.toNat_add_sub_self (by omega)]
  exact hk

theorem pair_parked : Parked pairLayout 64 pairCpu.mem true := by
  intro x hx
  have hcontext :=
    threadPrepare_context (by decide : (0x1FE8 : UInt64) ≠ null) 0 0x500 0 0x20000 0x10000
    1 fun _ => 0
  have hrsp : (Context.read pairCpu.mem (pairLayout.context true)).rsp = 0x30000 :=
    congrArg Context.rsp hcontext
  rw [hrsp, Below, UInt64.toNat_sub] at hx
  have hxlt := x.toNat_lt
  have h3 : (0x30000 : UInt64).toNat = 0x30000 := rfl
  simp only [pairLayout, if_true]
  omega

theorem pair_calls : Calls pairLayout 64 0 false true pairCpu where
  rip := rfl
  rdi := rfl
  rsi := rfl
  stack x hx := by
    have hrsp : (pairCpu.reg .rsp).toNat = 0x18000 := rfl
    have hxlt := x.toNat_lt
    rw [Below, UInt64.toNat_sub, hrsp] at hx
    simp only [pairLayout, Bool.false_eq_true, if_false]
    omega
  ret x hx := by
    have hrsp : (pairCpu.reg .rsp).toNat = 0x18000 := rfl
    have hxlt := x.toNat_lt
    rw [UInt64.toNat_sub, hrsp] at hx
    simp only [pairLayout, Bool.false_eq_true, if_false]
    omega

/-- The second thread has been started; the first one calls the switch. -/
def pairStarted : Machine Bool := ⟨pairCpu, false, fun i => i = true ∨ i = false⟩

theorem pair_create : PairStep ⟨pairCpu, false, fun i => i = false⟩ pairStarted :=
  .create true pair_parked

/-- It is interrupted in it. -/
theorem pair_switch : ∃ t, PairStep pairStarted ⟨t, true, pairStarted.alive⟩ ∧
    t.mem.load pairCount = pairCpu.mem.load pairCount + 1 := by
  obtain ⟨s, hs⟩ : ∃ s, pairIrq pairCpu s := ⟨_, rfl⟩
  have hlow : ∀ x, Below (pairCpu.reg .rsp) 64 x → pairLayout.own false x := pair_calls.stack
  have htrans := pair_quiet pairCpu s hs fun x hx => pairLayout.own_quiet false x (hlow x hx)
  have hcalls : Calls pairLayout 64 0 false true s := by
    refine ⟨htrans.rip, ?_, ?_, ?_, ?_⟩ <;> rw [htrans.reg]
    · exact pair_calls.rdi
    · exact pair_calls.rsi
    · exact pair_calls.stack
    · exact pair_calls.ret
  have hparked : Parked pairLayout 64 s.mem true := pair_parked.congr fun x hx =>
    htrans.mem x (fun h => pairLayout.own_context false true x (hlow x h) hx)
      (pairLayout.context_quiet true x hx)
  obtain ⟨t, ht, hmem⟩ : ∃ t, PairSwitches s t ∧ t.mem = saveContext 17 s :=
    exists_switches switchBlocks_loaded hcalls.rip (hcalls.live fun _ => hparked)
  refine ⟨t, .switch true (.inl rfl) pair_calls (ht.after_irq hs), ?_⟩
  rw [hmem, load_pairCount hcalls.rdi, hs, Ram.load_store_self]

/-- The second thread starts at address zero, which its structure held. -/
theorem prepared_thread_start_pair :
    ∃ t, PairStep pairStarted ⟨t, true, pairStarted.alive⟩ ∧ t.rip = 0 ∧
    t.reg .rsp = 0x30000 ∧ t.reg .rdi = 0x1000 := by
  obtain ⟨t, hstep, -⟩ := pair_switch
  obtain ⟨hrip, hrsp, hrdi⟩ := prepared_thread_start switchBlocks_loaded pair_quiet
    (fun i => Iff.rfl) (.single pair_create) (by decide : (0x1FE8 : UInt64) ≠ null) 0 0x500 0
    0x20000 0x10000 1 (fun _ => 0) rfl (fun x _ => rfl) hstep nofun
  exact ⟨t, hstep, hrip, hrsp, hrdi⟩

/-- The registers with which the second thread calls the switch. -/
def secondCall (t : Cpu) : Cpu :=
  { t with
    rip := 0
    reg := fun r => match r with
      | .rsp => 0x28000
      | .rdi => 0x2000
      | .rsi => 0x1000
      | _ => 9 }

theorem second_calls (t : Cpu) : Calls pairLayout 64 0 true false (secondCall t) where
  rip := rfl
  rdi := rfl
  rsi := rfl
  stack x hx := by
    have hrsp : ((secondCall t).reg .rsp).toNat = 0x28000 := rfl
    have hxlt := x.toNat_lt
    rw [Below, UInt64.toNat_sub, hrsp] at hx
    simp only [pairLayout, if_true]
    omega
  ret x hx := by
    have hrsp : ((secondCall t).reg .rsp).toNat = 0x28000 := rfl
    have hxlt := x.toNat_lt
    rw [UInt64.toNat_sub, hrsp] at hx
    simp only [pairLayout, if_true]
    omega

/-- The second thread calls the switch in its turn, and the call of the first one returns, though it
was interrupted. -/
theorem switch_returns_pair : ∃ m' : Machine Bool, ReflTransGen PairStep pairStarted m' ∧
    m'.current = false ∧ m'.cpu.mem.load pairCount = pairCpu.mem.load pairCount + 1 ∧
    m'.cpu.rip = 17 ∧ (exec .ret 18 m'.cpu).reg .rsp = 0x18008 ∧
    (exec .ret 18 m'.cpu).reg .rbx = 7 := by
  obtain ⟨t, hleave, hcount⟩ := pair_switch
  have hready := Ready.run switchBlocks_loaded pair_quiet (fun i => Iff.rfl)
    (ReflTransGen.head pair_create (.single hleave))
  have hown : PairStep ⟨t, true, pairStarted.alive⟩ ⟨secondCall t, true, pairStarted.alive⟩ :=
    .own (fun _ _ _ _ _ => rfl) rfl rfl
  have hparked : Parked pairLayout 64 (secondCall t).mem false :=
    hready.parked false (.inr rfl) nofun
  obtain ⟨t', ht', hmem⟩ : ∃ t', PairSwitches (secondCall t) t' ∧
      t'.mem = saveContext 17 (secondCall t) :=
    exists_switches switchBlocks_loaded rfl ((second_calls t).live fun _ => hparked)
  have hback : PairStep ⟨secondCall t, true, pairStarted.alive⟩ ⟨t', false, pairStarted.alive⟩ :=
    .switch false (.inr rfl) (second_calls t) ht'
  obtain ⟨hrip, hreturned⟩ := switch_returns (by decide) switchBlocks_loaded pair_quiet
    (fun i => Iff.rfl) (.single pair_create) hleave nofun (.single ⟨hown, nofun⟩) hback rfl 18
  refine ⟨_, .head hleave (.head hown (.single hback)), rfl, ?_, hrip, hreturned.rsp, ?_⟩
  · rw [hmem, load_pairCount (second_calls t).rdi]
    exact hcount
  · exact hreturned.saved .rbx (by decide)

end Mcsos.Sched
