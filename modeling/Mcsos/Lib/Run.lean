import Mathlib.Logic.Basic

/-!
# Runs of a state machine

For a machine that takes inputs `ω` one after the other: properties of every state of a run, and of
every input in the state it meets.  An invariant that a step keeps just when its input meets a
condition holds all along a run just when all inputs meet it.
-/

namespace Mcsos

variable {σ ω : Type} {step : ω → σ → σ}

/-- `P` holds of every state of the run, the first and the last one included. -/
def AllStates (step : ω → σ → σ) (P : σ → Prop) : List ω → σ → Prop
  | [], s => P s
  | o :: rest, s => P s ∧ AllStates step P rest (step o s)

/-- `C` holds of every input in the state it meets. -/
def AllSteps (step : ω → σ → σ) (C : ω → σ → Prop) : List ω → σ → Prop
  | [], _ => True
  | o :: rest, s => C o s ∧ AllSteps step C rest (step o s)

variable {I P : σ → Prop} {C : ω → σ → Prop}

theorem AllStates.here {ops : List ω} {s : σ} (h : AllStates step P ops s) : P s := by
  cases ops with
  | nil => exact h
  | cons o rest => exact h.1

theorem AllStates.last : ∀ {ops : List ω} {s : σ}, AllStates step P ops s →
    P (ops.foldl (fun s o => step o s) s) := by
  intro ops
  induction ops with
  | nil => exact fun h => h
  | cons o rest ih => exact fun h => ih h.2

theorem AllStates.mono (hpost : ∀ s, I s → P s) :
    ∀ {ops : List ω} {s : σ}, AllStates step I ops s → AllStates step P ops s := by
  intro ops
  induction ops with
  | nil => exact fun h => hpost _ h
  | cons o rest ih => exact fun h => ⟨hpost _ h.1, ih h.2⟩

theorem AllSteps.mono {D : ω → σ → Prop} (hCD : ∀ o s, C o s → D o s) :
    ∀ {ops : List ω} {s : σ}, AllSteps step C ops s → AllSteps step D ops s := by
  intro ops
  induction ops with
  | nil => exact fun _ => trivial
  | cons o rest ih => exact fun h => ⟨hCD o _ h.1, ih h.2⟩

theorem AllSteps.append {ops ops' : List ω} {s : σ} (h : AllSteps step C ops s)
    (h' : AllSteps step C ops' (ops.foldl (fun s o => step o s) s)) :
    AllSteps step C (ops ++ ops') s := by
  induction ops generalizing s with
  | nil => exact h'
  | cons o rest ih => exact ⟨h.1, ih h.2 h'⟩

/-- The rule of invariants. -/
theorem AllSteps.invariant (hstep : ∀ o s, I s → C o s → I (step o s)) :
    ∀ {ops : List ω} {s : σ}, I s → AllSteps step C ops s → AllStates step I ops s := by
  intro ops
  induction ops with
  | nil => exact fun hs _ => hs
  | cons o rest ih => exact fun hs h => ⟨hs, ih (hstep o _ hs h.1) h.2⟩

/-- Another condition that the inputs meet, by the invariant. -/
theorem AllSteps.imp {D : ω → σ → Prop} (hstep : ∀ o s, I s → C o s → I (step o s))
    (hD : ∀ o s, I s → C o s → D o s) :
    ∀ {ops : List ω} {s : σ}, I s → AllSteps step C ops s → AllSteps step D ops s := by
  intro ops
  induction ops with
  | nil => exact fun _ _ => trivial
  | cons o rest ih => exact fun hs h => ⟨hD o _ hs h.1, ih (hstep o _ hs h.1) h.2⟩

/-- An invariant that every step keeps. -/
theorem AllStates.of_step (hstep : ∀ o s, I s → I (step o s)) :
    ∀ {ops : List ω} {s : σ}, I s → AllStates step I ops s := by
  intro ops
  induction ops with
  | nil => exact fun hs => hs
  | cons o rest ih => exact fun hs => ⟨hs, ih (hstep o _ hs)⟩

theorem AllSteps.of_step (hstep : ∀ o s, I s → I (step o s)) (hC : ∀ o s, I s → C o s) :
    ∀ {ops : List ω} {s : σ}, I s → AllSteps step C ops s := by
  intro ops
  induction ops with
  | nil => exact fun _ => trivial
  | cons o rest ih => exact fun hs => ⟨hC o _ hs, ih (hstep o _ hs)⟩

/-- The converse, for a condition that is necessary as well. -/
theorem AllStates.steps (hstep : ∀ o s, I s → P s → P (step o s) → C o s)
    (hkeep : ∀ o s, I s → P s → I (step o s)) :
    ∀ {ops : List ω} {s : σ}, I s → AllStates step P ops s → AllSteps step C ops s := by
  intro ops
  induction ops with
  | nil => exact fun _ _ => trivial
  | cons o rest ih => exact fun hs h => ⟨hstep o _ hs h.1 h.2.here, ih (hkeep o _ hs h.1) h.2⟩

/-- The invariant implies `P`, and a step that meets `C` keeps it; one that does not meet `C` breaks
`P`. -/
theorem AllStates.iff_allSteps (hpost : ∀ s, I s → P s) (hkeep : ∀ o s, I s → C o s → I (step o s))
    (hexact : ∀ o s, I s → P (step o s) → C o s) :
    ∀ {ops : List ω} {s : σ}, I s → (AllStates step P ops s ↔ AllSteps step C ops s) := by
  intro ops s hs
  refine ⟨fun h => ?_, fun h => (h.invariant hkeep hs).mono hpost⟩
  induction ops generalizing s with
  | nil => trivial
  | cons o rest ih =>
    have hC := hexact o s hs h.2.here
    exact ⟨hC, ih (hkeep o s hs hC) h.2⟩

end Mcsos
