import Mcsos.Lib.Prog

/-!
# What programs can lead to

`After p Q d` says that some execution of `p` on the store `d`, with or without failing calls, ends
with a value and a store for which `Q` holds.  The rules are equivalences, one for each kind of
program, so what a sequence of steps can lead to is found by rewriting.
-/

namespace Mcsos

namespace Prog

variable {ι β ε α γ : Type} [DecidableEq ι]

/-- `p` can end with a value, so that `Q` holds. -/
def After (p : Prog ι β ε α) (Q : α → (ι → β) → Prop) (d : ι → β) : Prop :=
  ∃ a d', Exec p d (.ok a) d' ∧ Q a d'

variable {p : Prog ι β ε α} {Q : α → (ι → β) → Prop} {d : ι → β}

theorem exec_ret_iff {a : α} {r : Except ε α} {d' : ι → β} :
    Exec (ret a) d r d' ↔ r = .ok a ∧ d' = d := by
  constructor
  · intro h
    cases h
    exact ⟨rfl, rfl⟩
  · rintro ⟨rfl, rfl⟩
    exact Exec.ret a d'

theorem exec_fail_iff {e : ε} {r : Except ε α} {d' : ι → β} :
    Exec (fail e) d r d' ↔ r = .error e ∧ d' = d := by
  constructor
  · intro h
    cases h
    exact ⟨rfl, rfl⟩
  · rintro ⟨rfl, rfl⟩
    exact Exec.fail e d'

theorem after_ret {a : α} : After (ret a : Prog ι β ε α) Q d ↔ Q a d := by
  constructor
  · rintro ⟨b, d', hexec, hQ⟩
    cases hexec
    exact hQ
  · exact fun h => ⟨a, d, Exec.ret a d, h⟩

theorem not_after_fail {e : ε} : ¬ After (fail e : Prog ι β ε α) Q d := by
  rintro ⟨a, d', hexec, -⟩
  cases hexec

theorem after_readBlock {addr : ι} {Q : β → (ι → β) → Prop} :
    After (readBlock addr : Prog ι β ε β) Q d ↔ Q (d addr) d := by
  constructor
  · rintro ⟨b, d', hexec, hQ⟩
    cases hexec with
    | read h =>
      cases h
      exact hQ
    | readError e h => cases h
  · exact fun h => ⟨d addr, d, Exec.read (Exec.ret _ d), h⟩

theorem after_writeBlock {addr : ι} {data : β} {Q : Unit → (ι → β) → Prop} :
    After (writeBlock addr data : Prog ι β ε Unit) Q d ↔ Q () (Function.update d addr data) := by
  constructor
  · rintro ⟨b, d', hexec, hQ⟩
    cases hexec with
    | write h =>
      cases h
      exact hQ
    | writeError e h => cases h
  · exact fun h => ⟨(), _, Exec.write (Exec.ret _ _), h⟩

theorem exec_bind {f : α → Prog ι β ε γ} {a : α} {r : Except ε γ} {d' d'' : ι → β}
    (hp : Exec p d (.ok a) d') (hf : Exec (f a) d' r d'') : Exec (p >>= f) d r d'' := by
  induction p generalizing d with
  | ret b =>
    cases hp
    exact hf
  | fail e => cases hp
  | read addr next ih =>
    cases hp with
    | read h => exact Exec.read (ih _ h)
    | readError e h => exact Exec.readError e (ih _ h)
  | write addr data next ih =>
    cases hp with
    | write h => exact Exec.write (ih _ h)
    | writeError e h => exact Exec.writeError e (ih _ h)
  | flush next ih =>
    cases hp with
    | flush h => exact Exec.flush (ih _ h)
    | flushError e h => exact Exec.flushError e (ih _ h)

/-- An execution that ends well has gone through both parts. -/
theorem exec_bind_ok {f : α → Prog ι β ε γ} {c : γ} {d'' : ι → β}
    (h : Exec (p >>= f) d (.ok c) d'') :
    ∃ a d', Exec p d (.ok a) d' ∧ Exec (f a) d' (.ok c) d'' := by
  induction p generalizing d with
  | ret b => exact ⟨b, d, Exec.ret b d, h⟩
  | fail e => cases h
  | read addr next ih =>
    cases h with
    | read h =>
      obtain ⟨a, d', hp, hf⟩ := ih _ h
      exact ⟨a, d', Exec.read hp, hf⟩
    | readError e h =>
      obtain ⟨a, d', hp, hf⟩ := ih _ h
      exact ⟨a, d', Exec.readError e hp, hf⟩
  | write addr data next ih =>
    cases h with
    | write h =>
      obtain ⟨a, d', hp, hf⟩ := ih _ h
      exact ⟨a, d', Exec.write hp, hf⟩
    | writeError e h =>
      obtain ⟨a, d', hp, hf⟩ := ih _ h
      exact ⟨a, d', Exec.writeError e hp, hf⟩
  | flush next ih =>
    cases h with
    | flush h =>
      obtain ⟨a, d', hp, hf⟩ := ih _ h
      exact ⟨a, d', Exec.flush hp, hf⟩
    | flushError e h =>
      obtain ⟨a, d', hp, hf⟩ := ih _ h
      exact ⟨a, d', Exec.flushError e hp, hf⟩

/-- The rule of sequencing. -/
theorem after_bind {f : α → Prog ι β ε γ} {Q : γ → (ι → β) → Prop} :
    After (p >>= f) Q d ↔ After p (fun a => After (f a) Q) d := by
  constructor
  · rintro ⟨c, d'', hexec, hQ⟩
    obtain ⟨a, d', hp, hf⟩ := exec_bind_ok hexec
    exact ⟨a, d', hp, c, d'', hf, hQ⟩
  · rintro ⟨a, d', hp, c, d'', hf, hQ⟩
    exact ⟨c, d'', exec_bind hp hf, hQ⟩

/-- What a caller sees that goes on after a failure. -/
theorem exec_attempt {r : Except ε α} {d' : ι → β} :
    Exec p.attempt d (.ok r) d' ↔ Exec p d r d' := by
  induction p generalizing d with
  | ret a => rw [attempt, exec_ret_iff, exec_ret_iff, Except.ok.injEq]
  | fail e => rw [attempt, exec_ret_iff, exec_fail_iff, Except.ok.injEq]
  | read addr next ih =>
    constructor
    · intro h
      cases h with
      | read h => exact Exec.read ((ih _).mp h)
      | readError e h => exact Exec.readError e ((ih _).mp h)
    · intro h
      cases h with
      | read h => exact Exec.read ((ih _).mpr h)
      | readError e h => exact Exec.readError e ((ih _).mpr h)
  | write addr data next ih =>
    constructor
    · intro h
      cases h with
      | write h => exact Exec.write ((ih _).mp h)
      | writeError e h => exact Exec.writeError e ((ih _).mp h)
    · intro h
      cases h with
      | write h => exact Exec.write ((ih _).mpr h)
      | writeError e h => exact Exec.writeError e ((ih _).mpr h)
  | flush next ih =>
    constructor
    · intro h
      cases h with
      | flush h => exact Exec.flush ((ih _).mp h)
      | flushError e h => exact Exec.flushError e ((ih _).mp h)
    · intro h
      cases h with
      | flush h => exact Exec.flush ((ih _).mpr h)
      | flushError e h => exact Exec.flushError e ((ih _).mpr h)

theorem after_attempt {Q : Except ε α → (ι → β) → Prop} :
    After p.attempt Q d ↔ ∃ r d', Exec p d r d' ∧ Q r d' := by
  constructor
  · rintro ⟨r, d', hexec, hQ⟩
    exact ⟨r, d', exec_attempt.mp hexec, hQ⟩
  · rintro ⟨r, d', hexec, hQ⟩
    exact ⟨r, d', exec_attempt.mpr hexec, hQ⟩

end Prog

end Mcsos
