import Mathlib.Logic.Function.Basic

/-!
# Programs against a block store that may fail

A program of type `Prog ι β ε α` talks to a store of blocks of type `β`, addressed by `ι`, through
three callbacks: read a block, write a block, flush.  Each call is answered by the environment,
with a result or with an error of type `ε`, and the program continues on that answer.  A program
ends by returning a value or by failing with an error code, as a C function that returns its
status does.

Three meanings are given to a program started on a store `d : ι → β`.

* `run`: every callback succeeds.
* `Exec`: each call may fail on its own, with any error and no effect; `Exec p d r d'` holds when
  `p` can end with the result `r` and leave `d'` behind.
* `Visits`: power may be lost at any moment.  Writes are atomic and in order, so what survives is
  the store after some of them; `Visits p d d'` holds when `d'` can survive.

`Ends Q p d` is the weakest precondition for executions with faults: however the calls go, `p` ends
with `Q`.  `Returns Q p d` says more, that it ends with a value and never with an error code;
programs that return their status as a part of the value are such.  `Ends.exec` and `Returns.exec`
are their soundness, and `Returns.bind` and `Ends.attempt` the rules that proofs about programs use.
-/

namespace Mcsos

/-- A program against a store of blocks `β` addressed by `ι`, with error codes `ε`. -/
inductive Prog (ι β ε : Type) (α : Type) : Type where
  /-- End with a value. -/
  | ret (a : α)
  /-- End with an error code. -/
  | fail (e : ε)
  /-- Read a block. -/
  | read (addr : ι) (next : Except ε β → Prog ι β ε α)
  /-- Write a block. -/
  | write (addr : ι) (data : β) (next : Except ε Unit → Prog ι β ε α)
  /-- Flush the store. -/
  | flush (next : Except ε Unit → Prog ι β ε α)

namespace Prog

variable {ι β ε α γ : Type}

/-- Sequencing; an error code ends the whole program. -/
def bind : Prog ι β ε α → (α → Prog ι β ε γ) → Prog ι β ε γ
  | ret a, f => f a
  | fail e, _ => fail e
  | read addr next, f => read addr fun r => (next r).bind f
  | write addr data next, f => write addr data fun r => (next r).bind f
  | flush next, f => flush fun r => (next r).bind f

instance : Monad (Prog ι β ε) where
  pure := ret
  bind := bind

@[simp] theorem ret_bind (a : α) (f : α → Prog ι β ε γ) : (ret a >>= f) = f a := rfl

/-- Turns the error code of a program into a value, so that the caller may go on. -/
def attempt : Prog ι β ε α → Prog ι β ε (Except ε α)
  | ret a => ret (.ok a)
  | fail e => ret (.error e)
  | read addr next => read addr fun r => (next r).attempt
  | write addr data next => write addr data fun r => (next r).attempt
  | flush next => flush fun r => (next r).attempt

/-- Ends with the value or the error code it is given. -/
def ofExcept : Except ε α → Prog ι β ε α
  | .ok a => ret a
  | .error e => fail e

/-- Reads a block, or fails with the error of the callback. -/
def readBlock (addr : ι) : Prog ι β ε β := read addr ofExcept

/-- Writes a block, or fails with the error of the callback. -/
def writeBlock (addr : ι) (data : β) : Prog ι β ε Unit := write addr data ofExcept

/-- Flushes, or fails with the error of the callback. -/
def flushStore : Prog ι β ε Unit := flush ofExcept

/-! ## Every callback succeeds -/

section Healthy

variable [DecidableEq ι]

/-- The result and the final store when no callback fails. -/
def run : Prog ι β ε α → (ι → β) → Except ε α × (ι → β)
  | ret a, d => (.ok a, d)
  | fail e, d => (.error e, d)
  | read addr next, d => run (next (.ok (d addr))) d
  | write addr data next, d => run (next (.ok ())) (Function.update d addr data)
  | flush next, d => run (next (.ok ())) d

theorem run_bind (p : Prog ι β ε α) (f : α → Prog ι β ε γ) (d : ι → β) :
    run (p >>= f) d =
      match run p d with
      | (.ok a, d') => run (f a) d'
      | (.error e, d') => (.error e, d') := by
  induction p generalizing d with
  | ret a => rfl
  | fail e => rfl
  | read addr next ih => exact ih _ d
  | write addr data next ih => exact ih _ _
  | flush next ih => exact ih _ d

theorem run_bind_ok {p : Prog ι β ε α} {f : α → Prog ι β ε γ} {d d' : ι → β} {a : α}
    (h : run p d = (.ok a, d')) : run (p >>= f) d = run (f a) d' := by
  rw [run_bind, h]

theorem run_bind_error {p : Prog ι β ε α} {f : α → Prog ι β ε γ} {d d' : ι → β} {e : ε}
    (h : run p d = (.error e, d')) : run (p >>= f) d = (.error e, d') := by
  rw [run_bind, h]

theorem run_attempt (p : Prog ι β ε α) (d : ι → β) :
    run p.attempt d = (.ok (run p d).1, (run p d).2) := by
  induction p generalizing d with
  | ret a => rfl
  | fail e => rfl
  | read addr next ih => exact ih _ d
  | write addr data next ih => exact ih _ _
  | flush next ih => exact ih _ d

end Healthy

/-! ## Callbacks that fail and power that goes off -/

section Faulty

variable [DecidableEq ι]

/-- `Exec p d r d'`: with some of its calls failing, `p` ends with `r` and leaves `d'`. -/
inductive Exec : Prog ι β ε α → (ι → β) → Except ε α → (ι → β) → Prop where
  | ret (a : α) (d : ι → β) : Exec (ret a) d (.ok a) d
  | fail (e : ε) (d : ι → β) : Exec (fail e) d (.error e) d
  | read {addr next d r d'} : Exec (next (.ok (d addr))) d r d' → Exec (read addr next) d r d'
  | readError {addr next d r d'} (e : ε) :
      Exec (next (.error e)) d r d' → Exec (read addr next) d r d'
  | write {addr data next d r d'} :
      Exec (next (.ok ())) (Function.update d addr data) r d' → Exec (write addr data next) d r d'
  | writeError {addr data next d r d'} (e : ε) :
      Exec (next (.error e)) d r d' → Exec (write addr data next) d r d'
  | flush {next d r d'} : Exec (next (.ok ())) d r d' → Exec (flush next) d r d'
  | flushError {next d r d'} (e : ε) : Exec (next (.error e)) d r d' → Exec (flush next) d r d'

/-- `Visits p d d'`: power can be lost during `p` with `d'` on the store. -/
inductive Visits : Prog ι β ε α → (ι → β) → (ι → β) → Prop where
  | here (p : Prog ι β ε α) (d : ι → β) : Visits p d d
  | read {addr next d d'} : Visits (next (.ok (d addr))) d d' → Visits (read addr next) d d'
  | readError {addr next d d'} (e : ε) :
      Visits (next (.error e)) d d' → Visits (read addr next) d d'
  | write {addr data next d d'} :
      Visits (next (.ok ())) (Function.update d addr data) d' → Visits (write addr data next) d d'
  | writeError {addr data next d d'} (e : ε) :
      Visits (next (.error e)) d d' → Visits (write addr data next) d d'
  | flush {next d d'} : Visits (next (.ok ())) d d' → Visits (flush next) d d'
  | flushError {next d d'} (e : ε) : Visits (next (.error e)) d d' → Visits (flush next) d d'

/-- That nothing fails is one of the possible executions. -/
theorem exec_run (p : Prog ι β ε α) (d : ι → β) : Exec p d (run p d).1 (run p d).2 := by
  induction p generalizing d with
  | ret a => exact Exec.ret a d
  | fail e => exact Exec.fail e d
  | read addr next ih => exact Exec.read (ih _ d)
  | write addr data next ih => exact Exec.write (ih _ _)
  | flush next ih => exact Exec.flush (ih _ d)

theorem exec_of_run {p : Prog ι β ε α} {d d' : ι → β} {r : Except ε α} (h : run p d = (r, d')) :
    Exec p d r d' := by
  have hexec := exec_run p d
  rwa [h] at hexec

/-- However the calls go, `p` ends with `Q`. -/
def Ends (Q : Except ε α → (ι → β) → Prop) : Prog ι β ε α → (ι → β) → Prop
  | ret a, d => Q (.ok a) d
  | fail e, d => Q (.error e) d
  | read addr next, d => Ends Q (next (.ok (d addr))) d ∧ ∀ e, Ends Q (next (.error e)) d
  | write addr data next, d =>
      Ends Q (next (.ok ())) (Function.update d addr data) ∧ ∀ e, Ends Q (next (.error e)) d
  | flush next, d => Ends Q (next (.ok ())) d ∧ ∀ e, Ends Q (next (.error e)) d

/-- However the calls go, `p` ends with a value and `Q`. -/
def Returns (Q : α → (ι → β) → Prop) (p : Prog ι β ε α) (d : ι → β) : Prop :=
  Ends (fun r d' => ∃ a, r = .ok a ∧ Q a d') p d

variable {Q : Except ε α → (ι → β) → Prop} {R : α → (ι → β) → Prop} {p : Prog ι β ε α}
  {d d' : ι → β}

theorem Ends.exec {r : Except ε α} (h : Ends Q p d) (hexec : Exec p d r d') : Q r d' := by
  induction hexec with
  | ret a d => exact h
  | fail e d => exact h
  | read _ ih => exact ih h.1
  | readError e _ ih => exact ih (h.2 e)
  | write _ ih => exact ih h.1
  | writeError e _ ih => exact ih (h.2 e)
  | flush _ ih => exact ih h.1
  | flushError e _ ih => exact ih (h.2 e)

theorem Returns.exec {r : Except ε α} (h : Returns R p d) (hexec : Exec p d r d') :
    ∃ a, r = .ok a ∧ R a d' :=
  Ends.exec h hexec

theorem Returns.ret {a : α} (h : R a d) : Returns R (ret a : Prog ι β ε α) d := ⟨a, rfl, h⟩

/-- The rule of consequence. -/
theorem Returns.mono {S : α → (ι → β) → Prop} (h : Returns R p d)
    (hpost : ∀ a d', R a d' → S a d') : Returns S p d := by
  induction p generalizing d with
  | ret a =>
      obtain ⟨b, hb, hR⟩ := h
      exact ⟨b, hb, hpost b d hR⟩
  | fail e =>
      obtain ⟨_, he, _⟩ := h
      cases he
  | read addr next ih => exact ⟨ih _ h.1, fun e => ih _ (h.2 e)⟩
  | write addr data next ih => exact ⟨ih _ h.1, fun e => ih _ (h.2 e)⟩
  | flush next ih => exact ⟨ih _ h.1, fun e => ih _ (h.2 e)⟩

/-- The rule of sequencing. -/
theorem Returns.bind {S : γ → (ι → β) → Prop} {f : α → Prog ι β ε γ} (h : Returns R p d)
    (hf : ∀ a d', R a d' → Returns S (f a) d') : Returns S (p >>= f) d := by
  induction p generalizing d with
  | ret a =>
      obtain ⟨_, ⟨rfl⟩, ha⟩ := h
      exact hf a d ha
  | fail e =>
      obtain ⟨_, he, _⟩ := h
      cases he
  | read addr next ih => exact ⟨ih _ h.1, fun e => ih _ (h.2 e)⟩
  | write addr data next ih => exact ⟨ih _ h.1, fun e => ih _ (h.2 e)⟩
  | flush next ih => exact ⟨ih _ h.1, fun e => ih _ (h.2 e)⟩

/-- A caller that goes on after a failure sees the error code as a value. -/
theorem Ends.attempt (h : Ends Q p d) : Returns Q p.attempt d := by
  induction p generalizing d with
  | ret a => exact ⟨_, rfl, h⟩
  | fail e => exact ⟨_, rfl, h⟩
  | read addr next ih => exact ⟨ih _ h.1, fun e => ih _ (h.2 e)⟩
  | write addr data next ih => exact ⟨ih _ h.1, fun e => ih _ (h.2 e)⟩
  | flush next ih => exact ⟨ih _ h.1, fun e => ih _ (h.2 e)⟩

end Faulty

end Prog

end Mcsos
