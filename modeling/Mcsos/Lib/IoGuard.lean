import Mcsos.Lib.Io

/-!
# Devices under programs and their interrupts

A view of the devices that only the programs change, through ports, and not what happens from
outside.  `Guards` is the weakest precondition of a program for this view; it asks that the devices
are in a safe state wherever the program may be interrupted.  If each handler leaves the view of a
safe state as it is, interrupts do not show (`Config.guarded_run`).
-/

namespace Mcsos

/-- A view of the devices. -/
structure Device.View {δ ε ι : Type} (D : Device δ ε ι) (γ : Type) where
  view : δ → γ
  out : UInt16 → UInt8 → γ → γ
  reads : UInt16 → γ → UInt8 → Prop
  view_outb : ∀ port v d, view (D.outb port v d) = out port v (view d)
  reads_inb : ∀ port d, reads port (view d) (D.inb port d).1
  view_inb : ∀ port d, view (D.inb port d).2 = view d
  view_env : ∀ e d, view (D.env e d) = view d

namespace Io

variable {ℓ ς δ ε ι α β γ : Type} {D : Device δ ε ι} {V : D.View γ} {safe : γ → Prop}

/-- Where the program may be interrupted the view is safe, and at its end `post` holds of the
interrupt flag and the view. -/
def Guards (V : D.View γ) (safe : γ → Prop) (post : Bool → γ → Prop) : Io ℓ ς α → Bool → γ → Prop
  | ret _, on, c => post on c
  | halt, on, c => on = true → safe c
  | outb port v next, on, c => (on = true → safe c) ∧ Guards V safe post next on (V.out port v c)
  | inb port next, on, c => (on = true → safe c) ∧ ∀ v, V.reads port c v →
      Guards V safe post (next v) on c
  | lock _ next, on, c => (on = true → safe c) ∧ Guards V safe post next on c
  | unlock _ next, on, c => (on = true → safe c) ∧ Guards V safe post next on c
  | get next, on, c => (on = true → safe c) ∧ ∀ x, Guards V safe post (next x) on c
  | set _ next, on, c => (on = true → safe c) ∧ Guards V safe post next on c
  | setIf on' next, on, c => (on = true → safe c) ∧ Guards V safe post next on' c

theorem Guards.safe_of_on {post : Bool → γ → Prop} (hpost : ∀ on c, post on c → on = true → safe c)
    {p : Io ℓ ς α} {on : Bool} {c : γ} (h : Guards V safe post p on c) (hon : on = true) :
    safe c := by
  cases p with
  | ret a => exact hpost on c h hon
  | halt => exact h hon
  | _ => exact h.1 hon

theorem Guards.bind {mid post : Bool → γ → Prop} {p : Io ℓ ς α} {f : α → Io ℓ ς β}
    {on : Bool} {c : γ} (hp : Guards V safe mid p on c)
    (hf : ∀ a on' c', mid on' c' → Guards V safe post (f a) on' c') :
    Guards V safe post (p >>= f) on c := by
  change Guards V safe post (p.bind f) on c
  induction p generalizing on c with
  | ret a => exact hf a on c hp
  | halt => exact hp
  | outb port v next ih => exact ⟨hp.1, ih hp.2⟩
  | inb port next ih => exact ⟨hp.1, fun v hv => ih v (hp.2 v hv)⟩
  | lock l next ih => exact ⟨hp.1, ih hp.2⟩
  | unlock l next ih => exact ⟨hp.1, ih hp.2⟩
  | get next ih => exact ⟨hp.1, fun x => ih x (hp.2 x)⟩
  | set g next ih => exact ⟨hp.1, ih hp.2⟩
  | setIf on' next ih => exact ⟨hp.1, ih hp.2⟩

/-- The program writes to the ports `S` only, changes no variable and not the interrupt flag, and
does not halt the processor. -/
def Within (S : UInt16 → Prop) : Io ℓ ς α → Prop
  | ret _ => True
  | halt => False
  | outb port _ next => S port ∧ Within S next
  | inb _ next => ∀ v, Within S (next v)
  | lock _ next => Within S next
  | unlock _ next => Within S next
  | get next => ∀ x, Within S (next x)
  | set _ _ => False
  | setIf _ _ => False

theorem Within.bind {S : UInt16 → Prop} {p : Io ℓ ς α} {f : α → Io ℓ ς β} (hp : Within S p)
    (hf : ∀ a, Within S (f a)) : Within S (p >>= f) := by
  change Within S (p.bind f)
  induction p with
  | ret a => exact hf a
  | halt => exact hp.elim
  | outb port v next ih => exact ⟨hp.1, ih hp.2⟩
  | inb port next ih => exact fun v => ih v (hp v)
  | lock l next ih => exact ih hp
  | unlock l next ih => exact ih hp
  | get next ih => exact fun x => ih x (hp x)
  | set g next _ => exact hp.elim
  | setIf on next _ => exact hp.elim

/-- A program on ports that do not show leaves the view as it is. -/
theorem Within.guards {S : UInt16 → Prop} {p : Io ℓ ς α} {on : Bool} {c : γ} (hp : Within S p)
    (hS : ∀ port v, S port → V.out port v c = c) (hsafe : on = true → safe c) :
    Guards V safe (fun on' c' => on' = on ∧ c' = c) p on c := by
  induction p with
  | ret a => exact ⟨rfl, rfl⟩
  | halt => exact hp.elim
  | outb port v next ih => exact ⟨hsafe, by rw [hS port v hp.1]; exact ih hp.2⟩
  | inb port next ih => exact ⟨hsafe, fun v _ => ih v (hp v)⟩
  | lock l next ih => exact ⟨hsafe, ih hp⟩
  | unlock l next ih => exact ⟨hsafe, ih hp⟩
  | get next ih => exact ⟨hsafe, fun x => ih x (hp x)⟩
  | set g next _ => exact hp.elim
  | setIf on' next _ => exact hp.elim

/-- The program changes no variable. -/
def Keeps : Io ℓ ς α → Prop
  | ret _ => True
  | halt => True
  | outb _ _ next => Keeps next
  | inb _ next => ∀ v, Keeps (next v)
  | lock _ next => Keeps next
  | unlock _ next => Keeps next
  | get next => ∀ x, Keeps (next x)
  | set _ _ => False
  | setIf _ next => Keeps next

theorem Keeps.bind {p : Io ℓ ς α} {f : α → Io ℓ ς β} (hp : Keeps p) (hf : ∀ a, Keeps (f a)) :
    Keeps (p >>= f) := by
  change Keeps (p.bind f)
  induction p with
  | ret a => exact hf a
  | halt => trivial
  | outb port v next ih => exact ih hp
  | inb port next ih => exact fun v => ih v (hp v)
  | lock l next ih => exact ih hp
  | unlock l next ih => exact ih hp
  | get next ih => exact fun x => ih x (hp x)
  | set g next _ => exact hp.elim
  | setIf on next ih => exact ih hp

theorem Within.keeps {S : UInt16 → Prop} {p : Io ℓ ς α} (hp : Within S p) : Keeps p := by
  induction p with
  | ret a => trivial
  | halt => exact hp.elim
  | outb port v next ih => exact ih hp.2
  | inb port next ih => exact fun v => ih v (hp v)
  | lock l next ih => exact ih hp
  | unlock l next ih => exact ih hp
  | get next ih => exact fun x => ih x (hp x)
  | set g next _ => exact hp.elim
  | setIf on next _ => exact hp.elim

/-! ### Steps -/

variable [DecidableEq ℓ]

theorem Guards.step {post : Bool → γ → Prop} {p : Io ℓ ς α} {m : Machine ℓ ς δ}
    (h : Guards V safe post p m.enabled (V.view m.dev)) :
    Guards V safe post (p.step D m).1 (p.step D m).2.enabled (V.view (p.step D m).2.dev) := by
  cases p with
  | ret a => exact h
  | halt => exact h
  | outb port v next =>
      simp only [Io.step, V.view_outb]
      exact h.2
  | inb port next =>
      simp only [Io.step, V.view_inb]
      exact h.2 _ (V.reads_inb port m.dev)
  | lock l next =>
      rw [Io.step]
      split
      · exact h
      · exact h.2
  | unlock l next => exact h.2
  | get next => exact h.2 m.vars
  | set f next => exact h.2
  | setIf on' next => exact h.2

/-- A program that is not interrupted ends with its postcondition. -/
theorem Guards.run {post : Bool → γ → Prop} {p : Io ℓ ς α} {m m' : Machine ℓ ς δ} {a : α}
    (h : Guards V safe post p m.enabled (V.view m.dev)) (hrun : p.run D m = (.returns a, m')) :
    post m'.enabled (V.view m'.dev) := by
  induction p generalizing m with
  | ret b =>
      injection hrun with _ hm
      exact hm ▸ h
  | halt => cases hrun
  | outb port v next ih => exact ih (by simpa only [V.view_outb] using h.2) hrun
  | inb port next ih =>
      exact ih _ (by simpa only [V.view_inb] using h.2 _ (V.reads_inb port m.dev)) hrun
  | lock l next ih =>
      rw [Io.run] at hrun
      split at hrun
      · cases hrun
      · exact ih (m := { m with held := Function.update m.held l true }) h.2 hrun
  | unlock l next ih => exact ih (m := { m with held := Function.update m.held l false }) h.2 hrun
  | get next ih => exact ih m.vars (h.2 m.vars) hrun
  | set f next ih => exact ih (m := { m with vars := f m.vars }) h.2 hrun
  | setIf on' next ih => exact ih (m := { m with enabled := on' }) h.2 hrun

theorem Keeps.step {p : Io ℓ ς α} {m : Machine ℓ ς δ} (hp : Keeps p) :
    Keeps (p.step D m).1 ∧ (p.step D m).2.vars = m.vars := by
  cases p with
  | inb port next => exact ⟨hp _, rfl⟩
  | get next => exact ⟨hp _, rfl⟩
  | lock l next =>
      rw [Io.step]
      split
      · exact ⟨hp, rfl⟩
      · exact ⟨hp, rfl⟩
  | set f next => exact hp.elim
  | _ => exact ⟨hp, rfl⟩

end Io

namespace Config

variable {ℓ ς δ ε ι γ : Type} [DecidableEq ℓ] {D : Device δ ε ι} {V : D.View γ} {safe : γ → Prop}
  {handler : ι → Io ℓ ς Unit} {genuine : ι → Prop} {after : ι → ς → ς} {vars₀ : ς}

/-- A handler that is called with the devices in a safe state returns, with the view as it was
before the interrupt was handed out; `genuine` interrupts are the only ones, and `after` says what
their handlers do to the variables. -/
def Serves (V : D.View γ) (safe : γ → Prop) (handler : ι → Io ℓ ς Unit) (genuine : ι → Prop)
    (after : ι → ς → ς) :
    Prop :=
  ∀ (m : Machine ℓ ς δ) (i : ι) (dev : δ), (∀ l, m.held l = false) → safe (V.view m.dev) →
    D.ack m.dev = some (i, dev) → genuine i ∧ ∃ m',
    (handler i).run D { m with dev := dev, enabled := false } = (.returns (), m') ∧
      m'.held = m.held ∧ m'.vars = after i m.vars ∧ V.view m'.dev = V.view m.dev

/-- The program runs, guarded, and its interrupts were genuine and are the only ones that changed
the variables. -/
def Guarded (V : D.View γ) (safe : γ → Prop) (genuine : ι → Prop) (after : ι → ς → ς) (vars₀ : ς) :
    Config ℓ ς δ ι → Prop
  | running p m served =>
    p.Brackets (fun _ => false) m.held ∧ p.Keeps ∧
      p.Guards V safe (fun on c => on = true → safe c) m.enabled (V.view m.dev) ∧
      (∀ i ∈ served, genuine i) ∧ m.vars = served.foldl (fun vars i => after i vars) vars₀
  | halted _ => False
  | spinning _ _ => False

theorem Guarded.next {c : Config ℓ ς δ ι} {e : Event ε}
    (hserves : Serves V safe handler genuine after)
    (h : c.Guarded V safe genuine after vars₀) (he : AcceptsFree D e c) :
    (next D handler e c).Guarded V safe genuine after vars₀ := by
  cases c with
  | halted m => exact h
  | spinning l m => exact h
  | running p m served =>
      obtain ⟨hbrackets, hkeeps, hguards, hgenuine, hvars⟩ := h
      cases e with
      | step =>
          have hstep := hkeeps.step (D := D) (m := m)
          exact ⟨hbrackets.step, hstep.1, hguards.step, hgenuine, hstep.2.trans hvars⟩
      | env e =>
          refine ⟨hbrackets, hkeeps, ?_, hgenuine, hvars⟩
          simp only [V.view_env]
          exact hguards
      | intr =>
          rw [Config.next]
          split
          · rename_i henabled
            cases hack : D.ack m.dev with
            | none => exact ⟨hbrackets, hkeeps, hguards, hgenuine, hvars⟩
            | some r =>
                obtain ⟨i, dev⟩ := r
                have hsafe := hguards.safe_of_on (fun _ _ h => h) henabled
                obtain ⟨hi, m', hrun, hheld, hvars', hview⟩ :=
                  hserves m i dev (he henabled (by rw [hack]; rfl)) hsafe hack
                simp only [accept, hrun]
                refine ⟨by rw [hheld]; exact hbrackets, hkeeps, ?_, fun j hj => ?_, ?_⟩
                · simp only [hview]
                  rw [henabled] at hguards
                  exact hguards
                · rcases List.mem_append.mp hj with hj | hj
                  · exact hgenuine j hj
                  · rw [List.mem_singleton.mp hj]
                    exact hi
                · rw [List.foldl_append, ← hvars, hvars']
                  rfl
          · exact ⟨hbrackets, hkeeps, hguards, hgenuine, hvars⟩

/-- **Runs with interrupts** that are accepted while no lock is taken: in every state the program
runs, guarded. -/
theorem guarded_run {c : Config ℓ ς δ ι} (hserves : Serves V safe handler genuine after)
    (h : c.Guarded V safe genuine after vars₀) {events : List (Event ε)}
    (hfree : AllSteps (next D handler) (AcceptsFree D) events c) :
    AllStates (next D handler) (Guarded V safe genuine after vars₀) events c :=
  hfree.invariant (I := Guarded V safe genuine after vars₀) (fun _ _ h he => h.next hserves he) h

end Config

end Mcsos
