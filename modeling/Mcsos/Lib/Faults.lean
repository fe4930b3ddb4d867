import Mcsos.Lib.FailFast
import Mathlib.Data.Nat.Notation

/-!
# Programs under a given pattern of failures

`runFaults faults p k d` runs `p` on the store `d`; its calls are numbered from `k` on, and call `j`
fails with the error `faults j` and no effect, if there is one.  Each pattern gives one of the
executions of `Exec`.  A program that stops at the first failing call ends well under a pattern just
when it does so on a healthy store and the pattern leaves its calls alone
(`FailsFast.runFaults_eq_ok`).
-/

namespace Mcsos

namespace Prog

variable {ι β ε α γ : Type} [DecidableEq ι]

/-- The result and the final store when call `j` fails with `faults j`. -/
def runFaults (faults : ℕ → Option ε) : Prog ι β ε α → ℕ → (ι → β) → Except ε α × (ι → β)
  | ret a, _, d => (.ok a, d)
  | fail e, _, d => (.error e, d)
  | read addr next, k, d =>
      match faults k with
      | some e => runFaults faults (next (.error e)) (k + 1) d
      | none => runFaults faults (next (.ok (d addr))) (k + 1) d
  | write addr data next, k, d =>
      match faults k with
      | some e => runFaults faults (next (.error e)) (k + 1) d
      | none => runFaults faults (next (.ok ())) (k + 1) (Function.update d addr data)
  | flush next, k, d =>
      match faults k with
      | some e => runFaults faults (next (.error e)) (k + 1) d
      | none => runFaults faults (next (.ok ())) (k + 1) d

/-- The number of calls of the healthy run. -/
def callCount : Prog ι β ε α → (ι → β) → ℕ
  | ret _, _ => 0
  | fail _, _ => 0
  | read addr next, d => callCount (next (.ok (d addr))) d + 1
  | write addr data next, d => callCount (next (.ok ())) (Function.update d addr data) + 1
  | flush next, d => callCount (next (.ok ())) d + 1

variable {faults : ℕ → Option ε} {p : Prog ι β ε α} {d d' : ι → β} {a : α} {k : ℕ}

theorem runFaults_read {addr : ι} {next : Except ε β → Prog ι β ε α} :
    runFaults faults (read addr next) k d =
      match faults k with
      | some e => runFaults faults (next (.error e)) (k + 1) d
      | none => runFaults faults (next (.ok (d addr))) (k + 1) d := by
  rw [runFaults]

/-- A pattern of failures is one of the ways in which calls can go. -/
theorem exec_runFaults (faults : ℕ → Option ε) (p : Prog ι β ε α) (k : ℕ) (d : ι → β) :
    Exec p d (runFaults faults p k d).1 (runFaults faults p k d).2 := by
  induction p generalizing k d with
  | ret a => exact Exec.ret a d
  | fail e => exact Exec.fail e d
  | read addr next ih =>
    unfold runFaults
    cases faults k with
    | some e => exact Exec.readError e (ih _ _ _)
    | none => exact Exec.read (ih _ _ _)
  | write addr data next ih =>
    unfold runFaults
    cases faults k with
    | some e => exact Exec.writeError e (ih _ _ _)
    | none => exact Exec.write (ih _ _ _)
  | flush next ih =>
    unfold runFaults
    cases faults k with
    | some e => exact Exec.flushError e (ih _ _ _)
    | none => exact Exec.flush (ih _ _ _)

/-- The rule of sequencing. -/
theorem callCount_bind {f : α → Prog ι β ε γ} (h : run p d = (.ok a, d')) :
    callCount (p >>= f) d = callCount p d + callCount (f a) d' := by
  have hcons : ∀ {m c c' : ℕ}, m = c + c' → m + 1 = c + 1 + c' := fun h => by omega
  induction p generalizing d with
  | ret b =>
    cases h
    exact (Nat.zero_add _).symm
  | fail e => cases h
  | read addr next ih => exact hcons (ih _ h)
  | write addr data next ih => exact hcons (ih _ h)
  | flush next ih => exact hcons (ih _ h)

/-- The first of the calls that are left, and those behind it. -/
theorem no_faults_succ_iff {n : ℕ} : (∀ j < n + 1, faults (k + j) = none) ↔
    faults k = none ∧ ∀ j < n, faults (k + 1 + j) = none := by
  constructor
  · intro h
    refine ⟨h 0 (Nat.succ_pos n), fun j hj => ?_⟩
    have := h (j + 1) (Nat.succ_lt_succ hj)
    rwa [show k + (j + 1) = k + 1 + j by omega] at this
  · rintro ⟨hfirst, hrest⟩ j hj
    cases j with
    | zero => exact hfirst
    | succ j =>
      rw [show k + (j + 1) = k + 1 + j by omega]
      exact hrest j (Nat.lt_of_succ_lt_succ hj)

/-- One call of a program that stops when it fails, with what is known of its rest. -/
theorem call_eq_ok_iff {next : Except ε γ → Prog ι β ε α} {b : γ} {d₁ : ι → β} {n : ℕ}
    (hstop : ∀ e, ∃ e', next (.error e) = fail e')
    (hrest : runFaults faults (next (.ok b)) (k + 1) d₁ = (.ok a, d') ↔
      run (next (.ok b)) d₁ = (.ok a, d') ∧ ∀ j < n, faults (k + 1 + j) = none) :
    (match faults k with
      | some e => runFaults faults (next (.error e)) (k + 1) d
      | none => runFaults faults (next (.ok b)) (k + 1) d₁) = (.ok a, d') ↔
      run (next (.ok b)) d₁ = (.ok a, d') ∧ ∀ j < n + 1, faults (k + j) = none := by
  rw [no_faults_succ_iff]
  cases hfault : faults k with
  | some e =>
    obtain ⟨e', hfail⟩ := hstop e
    simp [hfail, runFaults]
  | none =>
    simp only [true_and]
    exact hrest

theorem FailsFast.runFaults_eq_ok (hp : FailsFast p) : runFaults faults p k d = (.ok a, d') ↔
    run p d = (.ok a, d') ∧ ∀ j < callCount p d, faults (k + j) = none := by
  induction p generalizing k d with
  | ret b => exact ⟨fun h => ⟨h, fun j hj => absurd hj (Nat.not_lt_zero j)⟩, fun h => h.1⟩
  | fail e => exact ⟨fun h => ⟨h, fun j hj => absurd hj (Nat.not_lt_zero j)⟩, fun h => h.1⟩
  | read addr next ih =>
    simp only [runFaults, run, callCount]
    exact call_eq_ok_iff hp.2 (ih _ (hp.1 _))
  | write addr data next ih =>
    simp only [runFaults, run, callCount]
    exact call_eq_ok_iff hp.2 (ih _ hp.1)
  | flush next ih =>
    simp only [runFaults, run, callCount]
    exact call_eq_ok_iff hp.2 (ih _ hp.1)

end Prog

end Mcsos
