import Mathlib.Logic.Function.Basic
import Mathlib.Logic.Function.Iterate
import Mcsos.Lib.Run

/-!
# Programs on I/O ports under interrupts

Kernel code that talks to devices through ports, takes spinlocks and may be interrupted.  `step` is
what the processor does next; a test-and-set of a lock that is taken is tried again and again.  All
loops of the programs are bounded but for these, so that a program left alone ends in one of three
ways, which `run` computes: it returns, it halts the processor, or it spins on a lock for ever
(`exists_steps`).

On a single processor a handler that runs with interrupts disabled cannot wait for the code that it
interrupted.  `spins_never_iff` is about whole runs with interrupts: if each handler takes some lock
and gives it back, and so does the program, the processor never spins just if no interrupt is
accepted while a lock is taken.
-/

namespace Mcsos

/-- Programs with locks `ℓ` and variables `ς`. -/
inductive Io (ℓ ς α : Type) : Type where
  | ret (a : α)
  | halt
  | outb (port : UInt16) (value : UInt8) (next : Io ℓ ς α)
  | inb (port : UInt16) (next : UInt8 → Io ℓ ς α)
  /-- `while (test_and_set(l)) {}` -/
  | lock (l : ℓ) (next : Io ℓ ς α)
  | unlock (l : ℓ) (next : Io ℓ ς α)
  | get (next : ς → Io ℓ ς α)
  | set (f : ς → ς) (next : Io ℓ ς α)
  /-- `sti` or `cli` -/
  | setIf (on : Bool) (next : Io ℓ ς α)

/-- Devices with states `δ`: their ports, what happens to them from outside, and the interrupt that
they hand out when the processor accepts one. -/
structure Device (δ ε ι : Type) where
  outb : UInt16 → UInt8 → δ → δ
  inb : UInt16 → δ → UInt8 × δ
  env : ε → δ → δ
  ack : δ → Option (ι × δ)

/-- The locks, the variables, the devices and the interrupt flag, and the bytes sent to ports so
far. -/
structure Machine (ℓ ς δ : Type) where
  held : ℓ → Bool
  vars : ς
  dev : δ
  enabled : Bool
  sent : List (UInt16 × UInt8)

namespace Io

variable {ℓ ς δ ε ι α β : Type}

def bind : Io ℓ ς α → (α → Io ℓ ς β) → Io ℓ ς β
  | ret a, f => f a
  | halt, _ => halt
  | outb port value next, f => outb port value (next.bind f)
  | inb port next, f => inb port fun v => (next v).bind f
  | lock l next, f => lock l (next.bind f)
  | unlock l next, f => unlock l (next.bind f)
  | get next, f => get fun x => (next x).bind f
  | set g next, f => set g (next.bind f)
  | setIf on next, f => setIf on (next.bind f)

instance : Monad (Io ℓ ς) where
  pure := ret
  bind := bind

theorem bind_assoc {γ : Type} (p : Io ℓ ς α) (f : α → Io ℓ ς β) (g : β → Io ℓ ς γ) :
    p >>= f >>= g = p >>= fun a => f a >>= g := by
  change (p.bind f).bind g = p.bind fun a => (f a).bind g
  induction p with
  | ret a => rfl
  | halt => rfl
  | outb port value next ih => exact congrArg (outb port value) ih
  | inb port next ih => exact congrArg (inb port) (funext ih)
  | lock l next ih => exact congrArg (lock l) ih
  | unlock l next ih => exact congrArg (unlock l) ih
  | get next ih => exact congrArg get (funext ih)
  | set f next ih => exact congrArg (set f) ih
  | setIf on next ih => exact congrArg (setIf on) ih

variable [DecidableEq ℓ] {D : Device δ ε ι}

/-- What the processor does next. -/
def step (D : Device δ ε ι) (p : Io ℓ ς α) (m : Machine ℓ ς δ) : Io ℓ ς α × Machine ℓ ς δ :=
  match p with
  | ret a => (ret a, m)
  | halt => (halt, m)
  | outb port value next =>
      (next, { m with dev := D.outb port value m.dev, sent := m.sent ++ [(port, value)] })
  | inb port next => (next (D.inb port m.dev).1, { m with dev := (D.inb port m.dev).2 })
  | lock l next => if m.held l then (lock l next, m)
      else (next, { m with held := Function.update m.held l true })
  | unlock l next => (next, { m with held := Function.update m.held l false })
  | get next => (next m.vars, m)
  | set f next => (next, { m with vars := f m.vars })
  | setIf on next => (next, { m with enabled := on })

/-- How a program ends. -/
inductive End (ℓ α : Type) where
  | returns (a : α)
  | halts
  | spins (l : ℓ)
  deriving DecidableEq, Repr

/-- The end of a program that is not interrupted. -/
def run (D : Device δ ε ι) : Io ℓ ς α → Machine ℓ ς δ → End ℓ α × Machine ℓ ς δ
  | ret a, m => (.returns a, m)
  | halt, m => (.halts, m)
  | outb port value next, m =>
    run D next { m with dev := D.outb port value m.dev, sent := m.sent ++ [(port, value)] }
  | inb port next, m => run D (next (D.inb port m.dev).1) { m with dev := (D.inb port m.dev).2 }
  | lock l next, m =>
    if m.held l then (.spins l, m) else run D next { m with held := Function.update m.held l true }
  | unlock l next, m => run D next { m with held := Function.update m.held l false }
  | get next, m => run D (next m.vars) m
  | set f next, m => run D next { m with vars := f m.vars }
  | setIf on next, m => run D next { m with enabled := on }

/-- The program has ended as `e` says; one that spins tries the lock again for ever. -/
def Ended : Io ℓ ς α → Machine ℓ ς δ → End ℓ α → Prop
  | ret a, _, e => e = .returns a
  | halt, _, e => e = .halts
  | lock l _, m, e => m.held l = true ∧ e = .spins l
  | _, _, _ => False

/-- What has ended stays as it is. -/
theorem Ended.step {p : Io ℓ ς α} {m : Machine ℓ ς δ} {e : End ℓ α} (h : Ended p m e) :
    p.step D m = (p, m) := by
  cases p <;> simp only [Ended] at h <;> simp only [Io.step]
  case lock => rw [if_pos h.1]

/-- After some steps the program has ended as `run` says. -/
def ComesToEnd (D : Device δ ε ι) (p : Io ℓ ς α) (m : Machine ℓ ς δ) : Prop :=
  ∃ n p', (fun c : Io ℓ ς α × Machine ℓ ς δ => c.1.step D c.2)^[n] (p, m) = (p', (p.run D m).2) ∧
    Ended p' (p.run D m).2 (p.run D m).1

theorem ComesToEnd.of_step {p q : Io ℓ ς α} {m m' : Machine ℓ ς δ} (hstep : p.step D m = (q, m'))
    (hrun : p.run D m = q.run D m') (h : ComesToEnd D q m') : ComesToEnd D p m := by
  obtain ⟨n, p', hsteps, hend⟩ := h
  refine ⟨n + 1, p', ?_, hrun ▸ hend⟩
  rw [Function.iterate_succ_apply, hrun]
  simp only [hstep]
  exact hsteps

/-- `run` is what the processor comes to, step by step. -/
theorem exists_steps (p : Io ℓ ς α) (m : Machine ℓ ς δ) : ComesToEnd D p m := by
  induction p generalizing m with
  | ret a => exact ⟨0, ret a, rfl, rfl⟩
  | halt => exact ⟨0, halt, rfl, rfl⟩
  | outb port value next ih => exact .of_step rfl rfl (ih _)
  | inb port next ih => exact .of_step rfl rfl (ih _ _)
  | lock l next ih =>
      by_cases hl : m.held l = true
      · have hrun : (lock l next).run D m = (.spins l, m) := by rw [run, if_pos hl]
        refine ⟨0, lock l next, ?_, ?_⟩
        · rw [hrun]
          rfl
        · rw [hrun]
          exact ⟨hl, rfl⟩
      · have hstep : (lock l next).step D m =
            (next, { m with held := Function.update m.held l true }) := by
          rw [step, if_neg hl]
        exact .of_step hstep (by rw [run, if_neg hl]) (ih _)
  | unlock l next ih => exact .of_step rfl rfl (ih _)
  | get next ih => exact .of_step rfl rfl (ih _ _)
  | set f next ih => exact .of_step rfl rfl (ih _)
  | setIf on next ih => exact .of_step rfl rfl (ih _)

/-! ### Sequences -/

/-- A program that ended, and another one behind it. -/
def End.andThen (e : End ℓ α × Machine ℓ ς δ) (f : α → Machine ℓ ς δ → End ℓ β × Machine ℓ ς δ) :
    End ℓ β × Machine ℓ ς δ :=
  match e.1 with
  | .returns a => f a e.2
  | .halts => (.halts, e.2)
  | .spins l => (.spins l, e.2)

theorem run_bind (p : Io ℓ ς α) (f : α → Io ℓ ς β) (m : Machine ℓ ς δ) :
    (p >>= f).run D m = End.andThen (p.run D m) fun a m' => (f a).run D m' := by
  change (p.bind f).run D m = _
  induction p generalizing m with
  | ret a => rfl
  | halt => rfl
  | outb port value next ih => exact ih _
  | inb port next ih => exact ih _ _
  | lock l next ih =>
      by_cases hl : m.held l = true
      · simp only [Io.bind, run, if_pos hl, End.andThen]
      · simp only [Io.bind, run, if_neg hl]
        exact ih _
  | unlock l next ih => exact ih _
  | get next ih => exact ih _ _
  | set f next ih => exact ih _
  | setIf on next ih => exact ih _

/-- The program takes no lock that is taken, gives back only what it holds, and holds `post` when it
returns. -/
def Brackets (post : ℓ → Bool) : (ℓ → Bool) → Io ℓ ς α → Prop
  | held, ret _ => held = post
  | _, halt => True
  | held, outb _ _ next => Brackets post held next
  | held, inb _ next => ∀ v, Brackets post held (next v)
  | held, lock l next => held l = false ∧ Brackets post (Function.update held l true) next
  | held, unlock l next => held l = true ∧ Brackets post (Function.update held l false) next
  | held, get next => ∀ x, Brackets post held (next x)
  | held, set _ next => Brackets post held next
  | held, setIf _ next => Brackets post held next

theorem Brackets.bind {pre mid post : ℓ → Bool} {p : Io ℓ ς α} {f : α → Io ℓ ς β}
    (hp : Brackets mid pre p) (hf : ∀ a, Brackets post mid (f a)) :
    Brackets post pre (p >>= f) := by
  change Brackets post pre (p.bind f)
  induction p generalizing pre with
  | ret a =>
      obtain rfl : pre = mid := hp
      exact hf a
  | halt => trivial
  | outb port value next ih => exact ih hp
  | inb port next ih => exact fun v => ih v (hp v)
  | lock l next ih => exact ⟨hp.1, ih hp.2⟩
  | unlock l next ih => exact ⟨hp.1, ih hp.2⟩
  | get next ih => exact fun x => ih x (hp x)
  | set f next ih => exact ih hp
  | setIf on next ih => exact ih hp

/-- Such a program does not spin. -/
theorem Brackets.run {post : ℓ → Bool} {p : Io ℓ ς α} {m : Machine ℓ ς δ}
    (h : Brackets post m.held p) :
    (∃ a m', p.run D m = (.returns a, m') ∧ m'.held = post) ∨ ∃ m', p.run D m = (.halts, m') := by
  induction p generalizing m with
  | ret a => exact .inl ⟨a, m, rfl, h⟩
  | halt => exact .inr ⟨m, rfl⟩
  | outb port value next ih => exact ih h
  | inb port next ih => exact ih _ (h _)
  | lock l next ih =>
      have hfree : ¬ m.held l = true := by simp only [h.1, Bool.false_eq_true, not_false_eq_true]
      simp only [Io.run, if_neg hfree]
      exact ih h.2
  | unlock l next ih => exact ih h.2
  | get next ih => exact ih _ (h _)
  | set f next ih => exact ih h
  | setIf on next ih => exact ih h

theorem Brackets.step {post : ℓ → Bool} {p : Io ℓ ς α} {m : Machine ℓ ς δ}
    (h : Brackets post m.held p) :
    Brackets post (p.step D m).2.held (p.step D m).1 := by
  cases p with
  | inb port next => exact h _
  | get next => exact h _
  | lock l next =>
      have hfree : ¬ m.held l = true := by simp only [h.1, Bool.false_eq_true, not_false_eq_true]
      simp only [Io.step, if_neg hfree]
      exact h.2
  | unlock l next => exact h.2
  | ret a => exact h
  | halt => trivial
  | outb port value next => exact h
  | set f next => exact h
  | setIf on next => exact h

end Io

/-! ### Runs with interrupts -/

/-- What happens next: the program takes a step, something happens to the devices, or the processor
looks for an interrupt. -/
inductive Event (ε : Type) where
  | step
  | env (e : ε)
  | intr

/-- A program that is running, with the interrupts that were served so far; or what has become of
the processor. -/
inductive Config (ℓ ς δ ι : Type) where
  | running (p : Io ℓ ς Unit) (m : Machine ℓ ς δ) (served : List ι)
  | halted (m : Machine ℓ ς δ)
  | spinning (l : ℓ) (m : Machine ℓ ς δ)

namespace Config

variable {ℓ ς δ ε ι : Type} [DecidableEq ℓ] {D : Device δ ε ι} {handler : ι → Io ℓ ς Unit}

/-- An interrupt is accepted: its handler runs with interrupts disabled. -/
def accept (D : Device δ ε ι) (handler : ι → Io ℓ ς Unit) (p : Io ℓ ς Unit) (m : Machine ℓ ς δ)
    (served : List ι) (i : ι) (dev : δ) : Config ℓ ς δ ι :=
  match (handler i).run D { m with dev := dev, enabled := false } with
  | (.returns _, m') => running p { m' with enabled := true } (served ++ [i])
  | (.halts, m') => halted m'
  | (.spins l, m') => spinning l m'

def next (D : Device δ ε ι) (handler : ι → Io ℓ ς Unit) (e : Event ε) (c : Config ℓ ς δ ι) :
    Config ℓ ς δ ι :=
  match c, e with
  | running p m served, .step => running (p.step D m).1 (p.step D m).2 served
  | running p m served, .env e => running p { m with dev := D.env e m.dev } served
  | running p m served, .intr =>
    if m.enabled then
      match D.ack m.dev with
      | none => running p m served
      | some (i, dev) => accept D handler p m served i dev
    else running p m served
  | halted m, _ => halted m
  | spinning l m, _ => spinning l m

/-- The processor tries to take a lock again and again. -/
def Spins : Config ℓ ς δ ι → Prop
  | running (.lock l _) m _ => m.held l = true
  | running _ _ _ => False
  | halted _ => False
  | spinning _ _ => True

/-- No lock is taken when an interrupt is accepted. -/
def AcceptsFree (D : Device δ ε ι) : Event ε → Config ℓ ς δ ι → Prop
  | .intr, running _ m _ => m.enabled = true → (D.ack m.dev).isSome → ∀ l, m.held l = false
  | _, _ => True

/-- The program that runs keeps to its locks. -/
def Bracketed : Config ℓ ς δ ι → Prop
  | running p m _ => p.Brackets (fun _ => false) m.held
  | halted _ => True
  | spinning _ _ => False

/-- A handler that gives back the locks it takes, and cannot do with one of them being taken. -/
structure Exclusive (D : Device δ ε ι) (p : Io ℓ ς Unit) : Prop where
  brackets : p.Brackets (fun _ => false) fun _ => false
  spins : ∀ m : Machine ℓ ς δ, (∃ l, m.held l = true) → ∃ l m', p.run D m = (.spins l, m')

theorem Bracketed.not_spins {c : Config ℓ ς δ ι} (h : c.Bracketed) : ¬ c.Spins := by
  cases c with
  | running p m served =>
      cases p with
      | lock l next =>
          have hfree := h.1
          simp only [Spins, hfree, Bool.false_eq_true, not_false_eq_true]
      | _ => exact fun hspins => hspins
  | halted m => exact fun hspins => hspins
  | spinning l m => exact h.elim

/-- An interrupt that is accepted while no lock is taken leaves the program running as before, or
halts. -/
theorem Bracketed.accept {p : Io ℓ ς Unit} {m : Machine ℓ ς δ} {served : List ι} {i : ι} {dev : δ}
    (hhandler : Exclusive D (handler i)) (hfree : ∀ l, m.held l = false)
    (hp : p.Brackets (fun _ => false) m.held) :
    (Config.accept D handler p m served i dev).Bracketed := by
  obtain hheld : m.held = fun _ => false := funext hfree
  have hbrackets := hhandler.brackets
  rw [← hheld] at hbrackets
  have hrun := Io.Brackets.run (D := D) (m := { m with dev := dev, enabled := false }) hbrackets
  rw [Config.accept]
  rcases hrun with ⟨a, m', hrun, hm'⟩ | ⟨m', hrun⟩
  · rw [hrun]
    change p.Brackets (fun _ => false) m'.held
    rw [hm']
    exact hp
  · rw [hrun]
    trivial

theorem Bracketed.next {c : Config ℓ ς δ ι} {e : Event ε} (hhandler : ∀ i, Exclusive D (handler i))
    (h : c.Bracketed) (he : AcceptsFree D e c) : (next D handler e c).Bracketed := by
  cases c with
  | halted m => exact h
  | spinning l m => exact h
  | running p m served =>
      cases e with
      | step => exact Io.Brackets.step h
      | env e => exact h
      | intr =>
          rw [Config.next]
          split
          · rename_i henabled
            cases hack : D.ack m.dev with
            | none => exact h
            | some r => exact Bracketed.accept (hhandler r.1) (he henabled (by rw [hack]; rfl)) h
          · exact h

theorem acceptsFree_of_not_spins {c : Config ℓ ς δ ι} {e : Event ε}
    (hhandler : ∀ i, Exclusive D (handler i)) (hspins : ¬ (next D handler e c).Spins) :
    AcceptsFree D e c := by
  cases c with
  | halted m => cases e <;> trivial
  | spinning l m => exact absurd trivial hspins
  | running p m served =>
      cases e with
      | step => trivial
      | env e => trivial
      | intr =>
          intro henabled hsome l
          by_contra hl
          obtain ⟨⟨i, dev⟩, hack⟩ := Option.isSome_iff_exists.mp hsome
          refine hspins ?_
          obtain ⟨l', m', hrun⟩ := (hhandler i).spins { m with dev := dev, enabled := false }
            ⟨l, (Bool.not_eq_false _).mp hl⟩
          simp only [Config.next, henabled, if_true, hack, Config.accept, hrun]
          trivial

/-- **Handlers and locks.**  The processor never spins, neither in the program nor in a handler,
just if no interrupt is accepted while a lock is taken. -/
theorem spins_never_iff {c : Config ℓ ς δ ι} (hhandler : ∀ i, Exclusive D (handler i))
    (hc : c.Bracketed) (events : List (Event ε)) :
    AllStates (next D handler) (fun c => ¬ c.Spins) events c ↔
      AllSteps (next D handler) (AcceptsFree D) events c :=
  AllStates.iff_allSteps (I := Bracketed) (fun _ h => h.not_spins)
    (fun _ _ h he => h.next hhandler he) (fun _ _ _ h => acceptsFree_of_not_spins hhandler h) hc

end Config

end Mcsos
