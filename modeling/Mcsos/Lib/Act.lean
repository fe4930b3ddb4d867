import Mathlib.Init

/-!
# Stateful code that returns a status

A C function that works on a structure through a pointer and returns a status code is an
`Act σ ε α`: it maps the structure to a value or an error code, together with the structure it
leaves behind.  Unlike with an exception that discards the state, what was changed before the
error code was returned stays changed.
-/

namespace Mcsos

/-- Code on a state `σ` that returns a value `α` or an error code `ε`. -/
def Act (σ ε α : Type) : Type := σ → Except ε α × σ

namespace Act

variable {σ ε α γ δ : Type}

/-- Sequencing; an error code ends the whole action. -/
def bind (x : Act σ ε α) (f : α → Act σ ε γ) : Act σ ε γ := fun s =>
  match x s with
  | (.ok a, s') => f a s'
  | (.error e, s') => (.error e, s')

instance : Monad (Act σ ε) where
  pure a := fun s => (.ok a, s)
  bind := bind

/-- Returns the error code `e`. -/
def fail (e : ε) : Act σ ε α := fun s => (.error e, s)

/-- The current state. -/
def get : Act σ ε σ := fun s => (.ok s, s)

/-- Replaces the state by `f` of it. -/
def modify (f : σ → σ) : Act σ ε Unit := fun s => (.ok (), f s)

/-- Returns the error code `e` if `c` holds. -/
def failIf (c : Prop) [Decidable c] (e : ε) : Act σ ε Unit := if c then fail e else pure ()

@[simp] theorem pure_apply (a : α) (s : σ) : (pure a : Act σ ε α) s = (.ok a, s) := rfl

theorem bind_apply (x : Act σ ε α) (f : α → Act σ ε γ) (s : σ) :
    (x >>= f) s =
      match x s with
      | (.ok a, s') => f a s'
      | (.error e, s') => (.error e, s') := rfl

theorem bind_of_ok {x : Act σ ε α} {s s' : σ} {a : α} (h : x s = (.ok a, s'))
    (f : α → Act σ ε γ) : (x >>= f) s = f a s' := by
  rw [bind_apply, h]

theorem bind_of_error {x : Act σ ε α} {s s' : σ} {e : ε} (h : x s = (.error e, s'))
    (f : α → Act σ ε γ) : (x >>= f) s = (.error e, s') := by
  rw [bind_apply, h]

@[simp] theorem pure_bind (a : α) (f : α → Act σ ε γ) :
    ((pure a : Act σ ε α) >>= f) = f a := rfl

theorem bind_assoc (x : Act σ ε α) (f : α → Act σ ε γ) (g : γ → Act σ ε δ) :
    (x >>= f) >>= g = x >>= fun a => f a >>= g := by
  funext s
  simp only [bind_apply]
  cases x s with
  | mk r s' => cases r <;> rfl

@[simp] theorem get_bind_apply (f : σ → Act σ ε γ) (s : σ) :
    ((get : Act σ ε σ) >>= f) s = f s s := rfl

@[simp] theorem modify_bind_apply (g : σ → σ) (f : Unit → Act σ ε γ) (s : σ) :
    ((modify g : Act σ ε Unit) >>= f) s = f () (g s) := rfl

theorem failIf_bind_of_not {c : Prop} [Decidable c] {e : ε} (h : ¬ c) (f : Unit → Act σ ε γ) :
    (failIf c e >>= f) = f () := by
  rw [failIf, if_neg h]
  rfl

theorem failIf_bind_of_pos {c : Prop} [Decidable c] {e : ε} (h : c) (f : Unit → Act σ ε γ)
    (s : σ) : (failIf c e >>= f) s = (.error e, s) := by
  rw [failIf, if_pos h]
  rfl

/-- An action that ends well has gone through both of its halves. -/
theorem bind_eq_ok {x : Act σ ε α} {f : α → Act σ ε γ} {s s' : σ} {c : γ}
    (h : (x >>= f) s = (.ok c, s')) : ∃ a t, x s = (.ok a, t) ∧ f a t = (.ok c, s') := by
  rw [bind_apply] at h
  split at h
  case h_1 a t hx => exact ⟨a, t, hx, h⟩
  case h_2 e t hx => cases h

theorem failIf_bind_eq_ok {c : Prop} [Decidable c] {e : ε} {f : Unit → Act σ ε γ} {s s' : σ} {a : γ}
    (h : (failIf c e >>= f) s = (.ok a, s')) : ¬ c ∧ f () s = (.ok a, s') := by
  by_cases hc : c
  · rw [failIf_bind_of_pos hc] at h
    cases h
  · rw [failIf_bind_of_not hc] at h
    exact ⟨hc, h⟩

end Act

end Mcsos
