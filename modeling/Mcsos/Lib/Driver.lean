import Mcsos.Lib.Prog

/-!
# Programs against a driver

A driver with a state of its own answers the calls of a program.  If it implements the blocks of a
set `A` of addresses (`Driver.Implements`), then a program that only uses those addresses runs
against it as against a healthy store (`interp_eq_run`).
-/

namespace Mcsos

namespace Prog

variable {ι β ε α γ σ : Type}

/-- The answers of a driver with states `σ`. -/
structure Driver (ι β ε σ : Type) where
  read : σ → ι → Except ε β
  write : σ → ι → β → Except ε Unit × σ
  flush : σ → Except ε Unit × σ

/-- The result of a program and the final state of the driver. -/
def interp (h : Driver ι β ε σ) : Prog ι β ε α → σ → Except ε α × σ
  | ret a, s => (.ok a, s)
  | fail e, s => (.error e, s)
  | read addr next, s => interp h (next (h.read s addr)) s
  | write addr data next, s => interp h (next (h.write s addr data).1) (h.write s addr data).2
  | flush next, s => interp h (next (h.flush s).1) (h.flush s).2

/-- The program uses addresses in `A` only. -/
def Within (A : ι → Prop) : Prog ι β ε α → Prop
  | ret _ => True
  | fail _ => True
  | read addr next => A addr ∧ ∀ r, Within A (next r)
  | write addr _ next => A addr ∧ ∀ r, Within A (next r)
  | flush next => ∀ r, Within A (next r)

variable {A : ι → Prop} {p : Prog ι β ε α}

theorem Within.bind {f : α → Prog ι β ε γ} (hp : Within A p) (hf : ∀ a, Within A (f a)) :
    Within A (p >>= f) := by
  induction p with
  | ret a => exact hf a
  | fail e => trivial
  | read addr next ih => exact ⟨hp.1, fun r => ih r (hp.2 r)⟩
  | write addr data next ih => exact ⟨hp.1, fun r => ih r (hp.2 r)⟩
  | flush next ih => exact fun r => ih r (hp r)

theorem Within.attempt (hp : Within A p) : Within A p.attempt := by
  induction p with
  | ret a => trivial
  | fail e => trivial
  | read addr next ih => exact ⟨hp.1, fun r => ih r (hp.2 r)⟩
  | write addr data next ih => exact ⟨hp.1, fun r => ih r (hp.2 r)⟩
  | flush next ih => exact fun r => ih r (hp r)

theorem within_ofExcept (r : Except ε α) : Within A (ofExcept r : Prog ι β ε α) := by
  cases r <;> trivial

/-- In the states `I`, the driver is a healthy store for the blocks at `A`, whose content is
`abs`. -/
structure Driver.Implements [DecidableEq ι] (h : Driver ι β ε σ) (A : ι → Prop) (I : σ → Prop)
    (abs : σ → ι → β) : Prop where
  read : ∀ s a, I s → A a → h.read s a = .ok (abs s a)
  write : ∀ s a b, I s → A a → (h.write s a b).1 = .ok () ∧ I (h.write s a b).2 ∧
    abs (h.write s a b).2 = Function.update (abs s) a b
  flush : ∀ s, I s → h.flush s = (.ok (), s)

theorem interp_eq_run [DecidableEq ι] {h : Driver ι β ε σ} {I : σ → Prop} {abs : σ → ι → β}
    (himp : h.Implements A I abs) (hp : Within A p) {s : σ} (hs : I s) :
    (interp h p s).1 = (run p (abs s)).1 ∧ abs (interp h p s).2 = (run p (abs s)).2 ∧
      I (interp h p s).2 := by
  induction p generalizing s with
  | ret a => exact ⟨rfl, rfl, hs⟩
  | fail e => exact ⟨rfl, rfl, hs⟩
  | read addr next ih =>
      rw [interp, run, himp.read s addr hs hp.1]
      exact ih _ (hp.2 _) hs
  | write addr data next ih =>
      obtain ⟨hok, hs', habs⟩ := himp.write s addr data hs hp.1
      rw [interp, run, hok, ← habs]
      exact ih _ (hp.2 _) hs'
  | flush next ih =>
      rw [interp, run, himp.flush s hs]
      exact ih _ (hp _) hs

end Prog

end Mcsos
