import Mcsos.Lib.Prog

/-!
# Programs that stop at the first failing call

`FailsFast p` says that `p` answers every failing callback by ending with an error code.  Such a
program leaves behind nothing that it would not also go through on a healthy store, so its
behaviour under faults is known from its healthy run alone: if `I` holds of every store along the
healthy run (`Along I p d`), then it holds of everything a faulty execution or a loss of power
leaves (`FailsFast.exec`, `FailsFast.visits`).

The healthy run itself is described by `Does abs I p d r v`: seen through an abstraction `abs` of
the store, `p` ends with the result `r` in the state `v`, and `I` holds of every state on the way.
Where the result is not known in advance, `Meets I A p d` says that `I` holds all the way and `A` of
the value `p` ends with, if it ends with one.
-/

namespace Mcsos

namespace Prog

variable {ι β ε α γ : Type}

/-- Every failing callback ends the program. -/
def FailsFast : Prog ι β ε α → Prop
  | ret _ => True
  | fail _ => True
  | read _ next => (∀ b, FailsFast (next (.ok b))) ∧ ∀ e, ∃ e', next (.error e) = fail e'
  | write _ _ next => FailsFast (next (.ok ())) ∧ ∀ e, ∃ e', next (.error e) = fail e'
  | flush next => FailsFast (next (.ok ())) ∧ ∀ e, ∃ e', next (.error e) = fail e'

@[simp] theorem failsFast_readBlock (addr : ι) : FailsFast (readBlock addr : Prog ι β ε β) :=
  ⟨fun _ => trivial, fun e => ⟨e, rfl⟩⟩

@[simp] theorem failsFast_writeBlock (addr : ι) (data : β) :
    FailsFast (writeBlock addr data : Prog ι β ε Unit) :=
  ⟨trivial, fun e => ⟨e, rfl⟩⟩

@[simp] theorem failsFast_flushStore : FailsFast (flushStore : Prog ι β ε Unit) :=
  ⟨trivial, fun e => ⟨e, rfl⟩⟩

theorem FailsFast.ite {c : Prop} [Decidable c] {p q : Prog ι β ε α} (hp : FailsFast p)
    (hq : FailsFast q) : FailsFast (if c then p else q) := by
  split
  · exact hp
  · exact hq

theorem FailsFast.bind {p : Prog ι β ε α} {f : α → Prog ι β ε γ} (hp : FailsFast p)
    (hf : ∀ a, FailsFast (f a)) : FailsFast (p >>= f) := by
  have herror : ∀ {r : Prog ι β ε α}, (∃ e', r = fail e') → ∃ e', r.bind f = fail e' := by
    rintro _ ⟨e', rfl⟩
    exact ⟨e', rfl⟩
  induction p with
  | ret a => exact hf a
  | fail e => exact trivial
  | read addr next ih => exact ⟨fun b => ih _ (hp.1 b), fun e => herror (hp.2 e)⟩
  | write addr data next ih => exact ⟨ih _ hp.1, fun e => herror (hp.2 e)⟩
  | flush next ih => exact ⟨ih _ hp.1, fun e => herror (hp.2 e)⟩

variable [DecidableEq ι]

/-- `I` holds of every store that the healthy run goes through. -/
def Along (I : (ι → β) → Prop) : Prog ι β ε α → (ι → β) → Prop
  | ret _, d => I d
  | fail _, d => I d
  | read addr next, d => I d ∧ Along I (next (.ok (d addr))) d
  | write addr data next, d => I d ∧ Along I (next (.ok ())) (Function.update d addr data)
  | flush next, d => I d ∧ Along I (next (.ok ())) d

variable {I : (ι → β) → Prop} {p : Prog ι β ε α} {d : ι → β}

theorem Along.here (h : Along I p d) : I d := by
  cases p with
  | ret a => exact h
  | fail e => exact h
  | read addr next => exact h.1
  | write addr data next => exact h.1
  | flush next => exact h.1

theorem along_true (p : Prog ι β ε α) (d : ι → β) : Along (fun _ => True) p d := by
  induction p generalizing d with
  | ret a => trivial
  | fail e => trivial
  | read addr next ih => exact ⟨trivial, ih _ d⟩
  | write addr data next ih => exact ⟨trivial, ih _ _⟩
  | flush next ih => exact ⟨trivial, ih _ d⟩

/-- The end of the run is a store along it. -/
theorem Along.final (h : Along I p d) : I (run p d).2 := by
  induction p generalizing d with
  | ret a => exact h
  | fail e => exact h
  | read addr next ih => exact ih _ h.2
  | write addr data next ih => exact ih _ h.2
  | flush next ih => exact ih _ h.2

/-- The rule of sequencing. -/
theorem Along.bind {f : α → Prog ι β ε γ} (hp : Along I p d)
    (hf : ∀ a, (run p d).1 = .ok a → Along I (f a) (run p d).2) : Along I (p >>= f) d := by
  induction p generalizing d with
  | ret a => exact hf a rfl
  | fail e => exact hp
  | read addr next ih => exact ⟨hp.1, ih _ hp.2 hf⟩
  | write addr data next ih => exact ⟨hp.1, ih _ hp.2 hf⟩
  | flush next ih => exact ⟨hp.1, ih _ hp.2 hf⟩

/-- A faulty execution ends like the healthy one or with an error, on a store along the way. -/
theorem FailsFast.exec {r : Except ε α} {d' : ι → β} (hp : FailsFast p) (h : Along I p d)
    (hexec : Exec p d r d') : I d' ∧ (run p d = (r, d') ∨ ∃ e, r = .error e) := by
  have hstop : ∀ {q : Prog ι β ε α} {r : Except ε α} {d d' : ι → β}, (∃ e', q = fail e') →
      I d → Exec q d r d' → I d' ∧ ∃ e, r = .error e := by
    rintro _ _ _ _ ⟨e', rfl⟩ hd hq
    cases hq
    exact ⟨hd, e', rfl⟩
  have hcut : ∀ {q q' : Prog ι β ε α} {r : Except ε α} {d d' e : ι → β}, (∃ e', q = fail e') →
      I d → Exec q d r d' → I d' ∧ (run q' e = (r, d') ∨ ∃ e, r = .error e) := fun hq hd hexec =>
    ⟨(hstop hq hd hexec).1, Or.inr (hstop hq hd hexec).2⟩
  induction hexec with
  | ret a d => exact ⟨h, Or.inl rfl⟩
  | fail e d => exact ⟨h, Or.inl rfl⟩
  | read _ ih => exact ih (hp.1 _) h.2
  | readError e hq _ => exact hcut (hp.2 e) h.1 hq
  | write _ ih => exact ih hp.1 h.2
  | writeError e hq _ => exact hcut (hp.2 e) h.1 hq
  | flush _ ih => exact ih hp.1 h.2
  | flushError e hq _ => exact hcut (hp.2 e) h.1 hq

/-- Losing power leaves a store along the way. -/
theorem FailsFast.visits {d' : ι → β} (hp : FailsFast p) (h : Along I p d)
    (hvisits : Visits p d d') : I d' := by
  have hstop : ∀ {q : Prog ι β ε α} {d d' : ι → β}, (∃ e', q = fail e') → I d → Visits q d d' →
      I d' := by
    rintro _ _ _ ⟨e', rfl⟩ hd hq
    cases hq
    exact hd
  induction hvisits with
  | here p d => exact h.here
  | read _ ih => exact ih (hp.1 _) h.2
  | readError e hq _ => exact hstop (hp.2 e) h.1 hq
  | write _ ih => exact ih hp.1 h.2
  | writeError e hq _ => exact hstop (hp.2 e) h.1 hq
  | flush _ ih => exact ih hp.1 h.2
  | flushError e hq _ => exact hstop (hp.2 e) h.1 hq

/-! ## Programs that only read -/

/-- The program writes nothing, whatever the callbacks answer. -/
def ReadOnly : Prog ι β ε α → Prop
  | ret _ => True
  | fail _ => True
  | read _ next => ∀ r, ReadOnly (next r)
  | write _ _ _ => False
  | flush next => ∀ r, ReadOnly (next r)

omit [DecidableEq ι] in
theorem ReadOnly.attempt (h : ReadOnly p) : ReadOnly p.attempt := by
  induction p with
  | ret a => trivial
  | fail e => trivial
  | read addr next ih => exact fun r => ih r (h r)
  | write addr data next => exact h
  | flush next ih => exact fun r => ih r (h r)

omit [DecidableEq ι] in
theorem ReadOnly.bind {f : α → Prog ι β ε γ} (hp : ReadOnly p) (hf : ∀ a, ReadOnly (f a)) :
    ReadOnly (p >>= f) := by
  induction p with
  | ret a => exact hf a
  | fail e => trivial
  | read addr next ih => exact fun r => ih r (hp r)
  | write addr data next => exact hp
  | flush next ih => exact fun r => ih r (hp r)

theorem ReadOnly.exec {r : Except ε α} {d' : ι → β} (hp : ReadOnly p) (h : Exec p d r d') :
    d' = d := by
  induction h with
  | ret a d => rfl
  | fail e d => rfl
  | read _ ih => exact ih (hp _)
  | readError e _ ih => exact ih (hp _)
  | write _ => exact absurd hp id
  | writeError e _ => exact absurd hp id
  | flush _ ih => exact ih (hp _)
  | flushError e _ ih => exact ih (hp _)

/-- After a reading program, the rest starts on the same store. -/
theorem ReadOnly.exec_bind {f : α → Prog ι β ε γ} {r : Except ε γ} {d' : ι → β} (hp : ReadOnly p)
    (h : Exec (p >>= f) d r d') : (∃ a, Exec (f a) d r d') ∨ ((∃ e, r = .error e) ∧ d' = d) := by
  induction p with
  | ret a => exact Or.inl ⟨a, h⟩
  | fail e =>
      cases h
      exact Or.inr ⟨⟨e, rfl⟩, rfl⟩
  | read addr next ih =>
      cases h with
      | read h => exact ih _ (hp _) h
      | readError e h => exact ih _ (hp _) h
  | write addr data next => exact absurd hp id
  | flush next ih =>
      cases h with
      | flush h => exact ih _ (hp _) h
      | flushError e h => exact ih _ (hp _) h

theorem ReadOnly.visits_bind {f : α → Prog ι β ε γ} {d' : ι → β} (hp : ReadOnly p)
    (h : Visits (p >>= f) d d') : (∃ a, Visits (f a) d d') ∨ d' = d := by
  induction p with
  | ret a => exact Or.inl ⟨a, h⟩
  | fail e =>
      cases h
      exact Or.inr rfl
  | read addr next ih =>
      cases h with
      | here => exact Or.inr rfl
      | read h => exact ih _ (hp _) h
      | readError e h => exact ih _ (hp _) h
  | write addr data next => exact absurd hp id
  | flush next ih =>
      cases h with
      | here => exact Or.inr rfl
      | flush h => exact ih _ (hp _) h
      | flushError e h => exact ih _ (hp _) h

/-! ## Healthy runs through an abstraction -/

section Does

variable {σ : Type} {abs : (ι → β) → σ} {J : σ → Prop} {r : Except ε α} {v : σ}

/-- On a healthy store `p` ends with the result `r`, in the abstract state `v`, and `J` holds of
every abstract state on the way. -/
def Does (abs : (ι → β) → σ) (J : σ → Prop) (p : Prog ι β ε α) (d : ι → β) (r : Except ε α)
    (v : σ) : Prop :=
  (run p d).1 = r ∧ abs (run p d).2 = v ∧ Along (fun d => J (abs d)) p d

theorem Does.final (h : Does abs J p d r v) : J v :=
  h.2.1 ▸ h.2.2.final

theorem Does.ret {a : α} (h : J (abs d)) :
    Does abs J (ret a : Prog ι β ε α) d (.ok a) (abs d) :=
  ⟨rfl, rfl, h⟩

theorem Does.fail {e : ε} (h : J (abs d)) :
    Does abs J (fail e : Prog ι β ε α) d (.error e) (abs d) :=
  ⟨rfl, rfl, h⟩

theorem Does.writeBlock {addr : ι} {data : β} (h : J (abs d))
    (h' : J (abs (Function.update d addr data))) :
    Does abs J (writeBlock addr data : Prog ι β ε Unit) d (.ok ())
      (abs (Function.update d addr data)) :=
  ⟨rfl, rfl, h, h'⟩

theorem Does.flushStore (h : J (abs d)) :
    Does abs J (flushStore : Prog ι β ε Unit) d (.ok ()) (abs d) :=
  ⟨rfl, rfl, h, h⟩

theorem Does.readBlock_bind {addr : ι} {f : β → Prog ι β ε α} (h : Does abs J (f (d addr)) d r v) :
    Does abs J (readBlock addr >>= f) d r v :=
  ⟨h.1, h.2.1, h.2.2.here, h.2.2⟩

theorem Does.bind {f : α → Prog ι β ε γ} {a : α} {r : Except ε γ} {w : σ}
    (hp : Does abs J p d (.ok a) v) (hf : ∀ d', abs d' = v → Does abs J (f a) d' r w) :
    Does abs J (p >>= f) d r w := by
  obtain ⟨hresult, hstate, halong⟩ := hp
  have hrest := hf _ hstate
  have hrun : run (p >>= f) d = run (f a) (run p d).2 := run_bind_ok (Prod.ext hresult rfl)
  refine ⟨hrun ▸ hrest.1, hrun ▸ hrest.2.1, halong.bind fun b hb => ?_⟩
  rw [hresult] at hb
  cases hb
  exact hrest.2.2

theorem Does.bind_error {f : α → Prog ι β ε γ} {e : ε} (hp : Does abs J p d (.error e) v) :
    Does abs J (p >>= f) d (.error e) v := by
  obtain ⟨hresult, hstate, halong⟩ := hp
  have hrun : run (p >>= f) d = (.error e, (run p d).2) := run_bind_error (Prod.ext hresult rfl)
  refine ⟨congrArg Prod.fst hrun, (congrArg (fun x => abs x.2) hrun).trans hstate,
    halong.bind fun b hb => ?_⟩
  rw [hresult] at hb
  cases hb

theorem Does.attempt (hp : Does abs J p d r v) : Does abs J p.attempt d (.ok r) v := by
  obtain ⟨hresult, hstate, halong⟩ := hp
  have hrun := run_attempt p d
  refine ⟨by rw [hrun, hresult], by rw [hrun, hstate], ?_⟩
  clear hresult hstate hrun
  induction p generalizing d with
  | ret a => exact halong
  | fail e => exact halong
  | read addr next ih => exact ⟨halong.1, ih _ halong.2⟩
  | write addr data next ih => exact ⟨halong.1, ih _ halong.2⟩
  | flush next ih => exact ⟨halong.1, ih _ halong.2⟩

end Does

/-! ## Pre- and postconditions of healthy runs -/

section Meets

variable {A : α → (ι → β) → Prop}

/-- On a healthy store `I` holds all the way, and if `p` ends with a value, `A` holds of it. -/
def Meets (I : (ι → β) → Prop) (A : α → (ι → β) → Prop) (p : Prog ι β ε α) (d : ι → β) : Prop :=
  Along I p d ∧ ∀ a, (run p d).1 = .ok a → A a (run p d).2

theorem Meets.ret {a : α} (hI : I d) (hA : A a d) : Meets I A (ret a : Prog ι β ε α) d := by
  refine ⟨hI, fun b hb => ?_⟩
  obtain rfl := Except.ok.inj hb
  exact hA

theorem Meets.fail {e : ε} (hI : I d) : Meets I A (fail e : Prog ι β ε α) d :=
  ⟨hI, fun _ h => by cases h⟩

theorem Meets.readBlock {addr : ι} {A : β → (ι → β) → Prop} (hI : I d) (hA : A (d addr) d) :
    Meets I A (readBlock addr : Prog ι β ε β) d := by
  refine ⟨⟨hI, hI⟩, fun b hb => ?_⟩
  obtain rfl := Except.ok.inj hb
  exact hA

theorem Meets.writeBlock {addr : ι} {data : β} {A : Unit → (ι → β) → Prop} (hI : I d)
    (hI' : I (Function.update d addr data)) (hA : A () (Function.update d addr data)) :
    Meets I A (writeBlock addr data : Prog ι β ε Unit) d :=
  ⟨⟨hI, hI'⟩, fun _ _ => hA⟩

theorem Meets.flushStore {A : Unit → (ι → β) → Prop} (hI : I d) (hA : A () d) :
    Meets I A (flushStore : Prog ι β ε Unit) d :=
  ⟨⟨hI, hI⟩, fun _ _ => hA⟩

theorem Meets.bind {B : γ → (ι → β) → Prop} {f : α → Prog ι β ε γ} (h : Meets I A p d)
    (hf : ∀ a d', I d' → A a d' → Meets I B (f a) d') : Meets I B (p >>= f) d := by
  have hrest : ∀ a, (run p d).1 = .ok a → Meets I B (f a) (run p d).2 := fun a ha =>
    hf a _ h.1.final (h.2 a ha)
  refine ⟨h.1.bind fun a ha => (hrest a ha).1, fun b hb => ?_⟩
  cases hresult : (run p d).1 with
  | error e =>
      rw [run_bind_error (Prod.ext hresult rfl)] at hb
      cases hb
  | ok a =>
      rw [run_bind_ok (Prod.ext hresult rfl)] at hb ⊢
      exact (hrest a hresult).2 b hb

end Meets

end Prog

end Mcsos
