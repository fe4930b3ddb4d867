import Mcsos.Lib.IoGuard

/-!
# Programs that enable interrupts

A kernel starts with interrupts disabled, enables them when its devices are set up, and disables
them for good before it halts.  `Starts`, `RunsOn` and `StaysOff` are programs in these three
stages; a run goes from one stage to the next (`Booting.next`, `Running.next`, `Stopped.next`), and
a program that is left alone comes from the first one to the second (`Booting.comesToRun`).
-/

namespace Mcsos

namespace Io

variable {ℓ ς δ ε ι α β : Type}

/-- The program never enables interrupts, and halts in the end. -/
def StaysOff : Io ℓ ς α → Prop
  | ret _ => False
  | halt => True
  | outb _ _ next => StaysOff next
  | inb _ next => ∀ v, StaysOff (next v)
  | lock _ next => StaysOff next
  | unlock _ next => StaysOff next
  | get next => ∀ x, StaysOff (next x)
  | set _ next => StaysOff next
  | setIf true _ => False
  | setIf false next => StaysOff next

/-- The program leaves interrupts enabled until it disables them for good. -/
def RunsOn : Io ℓ ς α → Prop
  | ret _ => False
  | halt => False
  | outb _ _ next => RunsOn next
  | inb _ next => ∀ v, RunsOn (next v)
  | lock _ next => RunsOn next
  | unlock _ next => RunsOn next
  | get next => ∀ x, RunsOn (next x)
  | set _ next => RunsOn next
  | setIf true next => RunsOn next
  | setIf false next => StaysOff next

theorem StaysOff.bind {p : Io ℓ ς α} (hp : StaysOff p) (f : α → Io ℓ ς β) : StaysOff (p >>= f) := by
  change StaysOff (p.bind f)
  induction p with
  | ret a => exact hp.elim
  | halt => trivial
  | outb port v next ih => exact ih hp
  | inb port next ih => exact fun v => ih v (hp v)
  | lock l next ih => exact ih hp
  | unlock l next ih => exact ih hp
  | get next ih => exact fun x => ih x (hp x)
  | set g next ih => exact ih hp
  | setIf on next ih =>
      cases on with
      | true => exact hp.elim
      | false => exact ih hp

section

variable {S : UInt16 → Prop} {p : Io ℓ ς α} {f : α → Io ℓ ς β}

theorem Within.staysOff (hp : Within S p) (hf : ∀ a, StaysOff (f a)) : StaysOff (p >>= f) := by
  change StaysOff (p.bind f)
  induction p with
  | ret a => exact hf a
  | halt => exact hp.elim
  | outb port v next ih => exact ih hp.2
  | inb port next ih => exact fun v => ih v (hp v)
  | lock l next ih => exact ih hp
  | unlock l next ih => exact ih hp
  | get next ih => exact fun x => ih x (hp x)
  | set g next _ => exact hp.elim
  | setIf on next _ => exact hp.elim

theorem Within.runsOn (hp : Within S p) (hf : ∀ a, RunsOn (f a)) : RunsOn (p >>= f) := by
  change RunsOn (p.bind f)
  induction p with
  | ret a => exact hf a
  | halt => exact hp.elim
  | outb port v next ih => exact ih hp.2
  | inb port next ih => exact fun v => ih v (hp v)
  | lock l next ih => exact ih hp
  | unlock l next ih => exact ih hp
  | get next ih => exact fun x => ih x (hp x)
  | set g next _ => exact hp.elim
  | setIf on next _ => exact hp.elim

end

variable [DecidableEq ℓ]

/-- Started with interrupts disabled and with the locks `held`, the program comes to enable
interrupts with no lock taken, and runs on. -/
def Starts : (ℓ → Bool) → Io ℓ ς α → Prop
  | _, ret _ => False
  | _, halt => False
  | held, outb _ _ next => Starts held next
  | held, inb _ next => ∀ v, Starts held (next v)
  | held, lock l next => held l = false ∧ Starts (Function.update held l true) next
  | held, unlock l next => Starts (Function.update held l false) next
  | held, get next => ∀ x, Starts held (next x)
  | held, set _ next => Starts held next
  | held, setIf true next => (∀ l, held l = false) ∧ RunsOn next
  | held, setIf false next => Starts held next

theorem Within.starts {S : UInt16 → Prop} {pre post : ℓ → Bool} {p : Io ℓ ς α} {f : α → Io ℓ ς β}
    (hp : Within S p) (hlocks : Brackets post pre p) (hf : ∀ a, Starts post (f a)) :
    Starts pre (p >>= f) := by
  change Starts pre (p.bind f)
  induction p generalizing pre with
  | ret a =>
      obtain rfl : pre = post := hlocks
      exact hf a
  | halt => exact hp.elim
  | outb port v next ih => exact ih hp.2 hlocks
  | inb port next ih => exact fun v => ih v (hp v) (hlocks v)
  | lock l next ih => exact ⟨hlocks.1, ih hp hlocks.2⟩
  | unlock l next ih => exact ih hp hlocks.2
  | get next ih => exact fun x => ih x (hp x) (hlocks x)
  | set g next _ => exact hp.elim
  | setIf on next _ => exact hp.elim

/-! ### Steps -/

variable {D : Device δ ε ι} {p : Io ℓ ς α} {m : Machine ℓ ς δ}

theorem StaysOff.step (hp : p.StaysOff) (hoff : m.enabled = false) :
    (p.step D m).2.enabled = false ∧ (p.step D m).1.StaysOff := by
  cases p with
  | ret a => exact hp.elim
  | inb port next => exact ⟨hoff, hp _⟩
  | get next => exact ⟨hoff, hp _⟩
  | lock l next =>
      rw [Io.step]
      split
      · exact ⟨hoff, hp⟩
      · exact ⟨hoff, hp⟩
  | setIf on next =>
      cases on with
      | true => exact hp.elim
      | false => exact ⟨rfl, hp⟩
  | _ => exact ⟨hoff, hp⟩

theorem RunsOn.step (hp : p.RunsOn) (hon : m.enabled = true) :
    ((p.step D m).2.enabled = true ∧ (p.step D m).1.RunsOn) ∨
      ((p.step D m).2.enabled = false ∧ (p.step D m).1.StaysOff) := by
  cases p with
  | ret a => exact hp.elim
  | halt => exact hp.elim
  | inb port next => exact .inl ⟨hon, hp _⟩
  | get next => exact .inl ⟨hon, hp _⟩
  | lock l next =>
      rw [Io.step]
      split
      · exact .inl ⟨hon, hp⟩
      · exact .inl ⟨hon, hp⟩
  | setIf on next =>
      cases on with
      | true => exact .inl ⟨rfl, hp⟩
      | false => exact .inr ⟨rfl, hp⟩
  | _ => exact .inl ⟨hon, hp⟩

theorem Starts.step (hp : p.Starts m.held) (hoff : m.enabled = false) :
    ((p.step D m).2.enabled = false ∧ (p.step D m).1.Starts (p.step D m).2.held) ∨
      ((p.step D m).2.enabled = true ∧ (p.step D m).1.RunsOn) := by
  cases p with
  | ret a => exact hp.elim
  | halt => exact hp.elim
  | inb port next => exact .inl ⟨hoff, hp _⟩
  | get next => exact .inl ⟨hoff, hp _⟩
  | lock l next =>
      -- nobody else can hold it yet: it is free, and the program goes on
      have hfree : ¬ m.held l = true := by simp only [hp.1, Bool.false_eq_true, not_false_eq_true]
      simp only [Io.step, if_neg hfree]
      exact .inl ⟨hoff, hp.2⟩
  | setIf on next =>
      cases on with
      | true => exact .inr ⟨rfl, hp.2⟩
      | false => exact .inl ⟨rfl, hp⟩
  | _ => exact .inl ⟨hoff, hp⟩

end Io

/-! ### Stages of a run -/

namespace Config

variable {ℓ ς δ ε ι γ : Type} [DecidableEq ℓ] {D : Device δ ε ι} {handler : ι → Io ℓ ς Unit}
  {c : Config ℓ ς δ ι} {e : Event ε}

/-- Interrupts have not been enabled yet. -/
def Booting : Config ℓ ς δ ι → Prop
  | running p m served => m.enabled = false ∧ served = [] ∧ p.Starts m.held
  | halted _ => False
  | spinning _ _ => False

/-- The program runs with interrupts enabled. -/
def Running : Config ℓ ς δ ι → Prop
  | running p m _ => m.enabled = true ∧ p.RunsOn
  | halted _ => False
  | spinning _ _ => False

/-- The program has disabled interrupts for good: it halts the processor, or has done so. -/
def Stopped : Config ℓ ς δ ι → Prop
  | running p m _ => m.enabled = false ∧ p.StaysOff
  | halted _ => False
  | spinning _ _ => False

/-- The program, and not a handler, has the processor. -/
def InProgram : Config ℓ ς δ ι → Prop
  | running _ _ _ => True
  | halted _ => False
  | spinning _ _ => False

theorem Booting.next (h : c.Booting) :
    (next D handler e c).Booting ∨ (next D handler e c).Running := by
  cases c with
  | halted m => exact h.elim
  | spinning l m => exact h.elim
  | running p m served =>
      obtain ⟨hoff, hserved, hp⟩ := h
      cases e with
      | step => exact (hp.step hoff).imp (fun h => ⟨h.1, hserved, h.2⟩) fun h => h
      | env e => exact .inl ⟨hoff, hserved, hp⟩
      | intr =>
          rw [Config.next, if_neg (by rw [hoff]; exact Bool.false_ne_true)]
          exact .inl ⟨hoff, hserved, hp⟩

theorem Stopped.next (h : c.Stopped) : (next D handler e c).Stopped := by
  cases c with
  | halted m => exact h.elim
  | spinning l m => exact h.elim
  | running p m served =>
      obtain ⟨hoff, hp⟩ := h
      cases e with
      | step => exact hp.step hoff
      | env e => exact ⟨hoff, hp⟩
      | intr =>
          rw [Config.next, if_neg (by rw [hoff]; exact Bool.false_ne_true)]
          exact ⟨hoff, hp⟩

/-- If no handler keeps the processor. -/
theorem Running.next (h : c.Running) (hprogram : (next D handler e c).InProgram) :
    (next D handler e c).Running ∨ (next D handler e c).Stopped := by
  cases c with
  | halted m => exact h.elim
  | spinning l m => exact h.elim
  | running p m served =>
      obtain ⟨hon, hp⟩ := h
      cases e with
      | step => exact hp.step hon
      | env e => exact .inl ⟨hon, hp⟩
      | intr =>
          rw [Config.next, if_pos hon] at hprogram ⊢
          cases hack : D.ack m.dev with
          | none => exact .inl ⟨hon, hp⟩
          | some r =>
              simp only [hack] at hprogram ⊢
              rw [accept] at hprogram ⊢
              -- a handler that halts or spins would keep the processor; one that returns leaves
              -- interrupts enabled
              split at hprogram
              · exact .inl ⟨rfl, hp⟩
              · exact hprogram.elim
              · exact hprogram.elim

/-- The interrupts that were served. -/
def served : Config ℓ ς δ ι → List ι
  | running _ _ served => served
  | halted _ => []
  | spinning _ _ => []

/-- Left alone, the program comes to run with interrupts enabled and no lock taken. -/
def ComesToRun (D : Device δ ε ι) (handler : ι → Io ℓ ς Unit) (c : Config ℓ ς δ ι) : Prop :=
  ∃ k p m, (List.replicate k Event.step).foldl (fun c e => Config.next D handler e c) c =
    running p m c.served ∧ (running p m c.served).Running ∧ ∀ l, m.held l = false

theorem served_step (c : Config ℓ ς δ ι) : (Config.next D handler .step c).served = c.served := by
  cases c <;> rfl

theorem ComesToRun.of_step (h : ComesToRun D handler (Config.next D handler .step c)) :
    ComesToRun D handler c := by
  obtain ⟨k, p, m, hsteps, hrun⟩ := h
  rw [served_step] at hsteps hrun
  exact ⟨k + 1, p, m, hsteps, hrun⟩

/-- A program that starts interrupts gets there. -/
theorem Booting.comesToRun (h : c.Booting) : ComesToRun D handler c := by
  cases c with
  | halted m => exact h.elim
  | spinning l m => exact h.elim
  | running p m served =>
      obtain ⟨-, -, hp⟩ := h
      -- each statement takes one step, for no lock is waited for; the machine is another one then
      induction p generalizing m with
      | ret a => exact hp.elim
      | halt => exact hp.elim
      | outb port v next ih => exact .of_step (ih _ hp)
      | inb port next ih => exact .of_step (ih _ _ (hp _))
      | lock l next ih =>
          have hfree : ¬ m.held l = true := by simp only [hp.1, Bool.false_eq_true,
              not_false_eq_true]
          refine .of_step ?_
          simp only [Config.next, Io.step, if_neg hfree]
          exact ih _ hp.2
      | unlock l next ih => exact .of_step (ih _ hp)
      | get next ih => exact .of_step (ih _ _ (hp _))
      | set g next ih => exact .of_step (ih _ hp)
      | setIf on next ih =>
          cases on with
          | true => exact ⟨1, next, { m with enabled := true }, rfl, ⟨rfl, hp.2⟩, hp.1⟩
          | false => exact .of_step (ih _ hp)

/-! ### Guarded runs -/

variable {V : D.View γ} {safe : γ → Prop} {genuine : ι → Prop} {after : ι → ς → ς} {vars₀ : ς}

theorem Guarded.inProgram (h : c.Guarded V safe genuine after vars₀) : c.InProgram := by
  cases c with
  | running p m served => trivial
  | halted m => exact h
  | spinning l m => exact h

/-- In runs with interrupts that are accepted while no lock is taken the program goes through the
stages, guarded. -/
theorem staged_run (hserves : Serves V safe handler genuine after)
    (h : c.Guarded V safe genuine after vars₀) (hboot : c.Booting) {events : List (Event ε)}
    (hfree : AllSteps (Config.next D handler) (AcceptsFree D) events c) :
    AllStates (Config.next D handler)
      (fun c => c.Guarded V safe genuine after vars₀ ∧ (c.Booting ∨ c.Running ∨ c.Stopped))
        events c := by
  refine hfree.invariant (fun e c hc he => ?_) ⟨h, .inl hboot⟩
  obtain ⟨hguarded, hstage⟩ := hc
  have hguarded' := hguarded.next hserves he
  refine ⟨hguarded', ?_⟩
  rcases hstage with hbooting | hrunning | hstopped
  · exact hbooting.next.imp_right .inl
  · exact .inr (hrunning.next hguarded'.inProgram)
  · exact .inr (.inr hstopped.next)

/-- A program that is left alone accepts no interrupt. -/
theorem acceptsFree_replicate (k : ℕ) (c : Config ℓ ς δ ι) :
    AllSteps (Config.next D handler) (AcceptsFree D) (List.replicate k .step) c := by
  induction k generalizing c with
  | zero => trivial
  | succ k ih =>
      refine ⟨?_, ih _⟩
      cases c <;> trivial

end Config

end Mcsos
