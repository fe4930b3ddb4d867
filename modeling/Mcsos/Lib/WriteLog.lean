import Mathlib.Logic.Function.Basic
import Mathlib.Data.List.Basic

/-!
# Lists of block writes

A sequence of atomic block writes is a list of addresses with the data written there, and
`applyWrites` carries it out in order.  A block is decided by the last write to it, so the effect
of a list depends on the store before it only at addresses the list does not write
(`applyWrites_congr`); in particular a list carried out again over any of its own initial parts
ends as if it had been carried out once (`applyWrites_applyWrites_take`).
-/

namespace Mcsos

variable {ι β : Type} [DecidableEq ι]

/-- The store after the writes `ws`, in order. -/
def applyWrites : List (ι × β) → (ι → β) → (ι → β)
  | [], d => d
  | w :: ws, d => applyWrites ws (Function.update d w.1 w.2)

@[simp] theorem applyWrites_nil (d : ι → β) : applyWrites [] d = d := rfl

@[simp] theorem applyWrites_singleton (w : ι × β) (d : ι → β) :
    applyWrites [w] d = Function.update d w.1 w.2 := rfl

theorem applyWrites_append (ws vs : List (ι × β)) (d : ι → β) :
    applyWrites (ws ++ vs) d = applyWrites vs (applyWrites ws d) := by
  induction ws generalizing d with
  | nil => rfl
  | cons w ws ih => exact ih _

/-- An address that no write touches keeps its block. -/
theorem applyWrites_of_ne {ws : List (ι × β)} {x : ι} (h : ∀ w ∈ ws, w.1 ≠ x) (d : ι → β) :
    applyWrites ws d x = d x := by
  induction ws generalizing d with
  | nil => rfl
  | cons w ws ih =>
      have hhead : x ≠ w.1 := (h w List.mem_cons_self).symm
      have htail : ∀ v ∈ ws, v.1 ≠ x := fun v hv => h v (List.mem_cons_of_mem w hv)
      exact (ih htail _).trans (Function.update_of_ne hhead _ _)

/-- What a written address holds does not depend on what it held before. -/
theorem applyWrites_congr {ws : List (ι × β)} {a b : ι → β} {x : ι}
    (h : (∃ w ∈ ws, w.1 = x) ∨ a x = b x) : applyWrites ws a x = applyWrites ws b x := by
  induction ws generalizing a b with
  | nil =>
      rcases h with ⟨w, hw, _⟩ | h
      · exact absurd hw List.not_mem_nil
      · exact h
  | cons w ws ih =>
      apply ih
      by_cases hx : w.1 = x
      · right
        subst hx
        simp only [Function.update_self]
      · rcases h with ⟨v, hv, hvx⟩ | h
        · rcases List.mem_cons.mp hv with rfl | hv
          · exact absurd hvx hx
          · exact Or.inl ⟨v, hv, hvx⟩
        · right
          rw [Function.update_of_ne (Ne.symm hx), Function.update_of_ne (Ne.symm hx), h]

/-- Two stores that agree where `ws` does not write agree everywhere after `ws`. -/
theorem applyWrites_eq_of_agree {ws : List (ι × β)} {a b : ι → β}
    (h : ∀ x, (∀ w ∈ ws, w.1 ≠ x) → a x = b x) (x : ι) :
    applyWrites ws a x = applyWrites ws b x := by
  apply applyWrites_congr
  by_cases hmem : ∃ w ∈ ws, w.1 = x
  · exact Or.inl hmem
  · exact Or.inr (h x fun w hw hwx => hmem ⟨w, hw, hwx⟩)

/-- Carrying out a list over the result of an initial part of it. -/
theorem applyWrites_applyWrites_take (ws : List (ι × β)) (k : ℕ) (d : ι → β) (x : ι) :
    applyWrites ws (applyWrites (ws.take k) d) x = applyWrites ws d x :=
  applyWrites_eq_of_agree
    (fun _ h => applyWrites_of_ne (fun w hw => h w (List.mem_of_mem_take hw)) d) x

/-- Sending one write to another address: the result is the same at the addresses that matter
exactly when both addresses, as far as they matter, are written again or hold the data already. -/
theorem applyWrites_retarget_iff {pre post : List (ι × β)} {t t' : ι} {p : β} {d : ι → β}
    {P : ι → Prop} (hne : t' ≠ t) :
    (∀ x, P x → applyWrites (pre ++ (t', p) :: post) d x =
      applyWrites (pre ++ (t, p) :: post) d x) ↔
      (P t → (∃ w ∈ post, w.1 = t) ∨ applyWrites pre d t = p) ∧
        (P t' → (∃ w ∈ post, w.1 = t') ∨ applyWrites pre d t' = p) := by
  have hsplit : ∀ a, applyWrites (pre ++ (a, p) :: post) d =
      applyWrites post (Function.update (applyWrites pre d) a p) :=
    fun a => applyWrites_append _ _ _
  simp only [hsplit]
  generalize applyWrites pre d = c
  constructor
  · intro h
    have hdecided : ∀ x, P x → (¬ ∃ w ∈ post, w.1 = x) →
        Function.update c t' p x = Function.update c t p x := by
      intro x hx hnot
      have hkept : ∀ w ∈ post, w.1 ≠ x := fun w hw hwx => hnot ⟨w, hw, hwx⟩
      have hsame := h x hx
      rwa [applyWrites_of_ne hkept, applyWrites_of_ne hkept] at hsame
    constructor
    · intro ht
      refine or_iff_not_imp_left.mpr fun hnot => ?_
      have := hdecided t ht hnot
      rwa [Function.update_of_ne (Ne.symm hne), Function.update_self] at this
    · intro ht
      refine or_iff_not_imp_left.mpr fun hnot => ?_
      have := hdecided t' ht hnot
      rw [Function.update_of_ne hne, Function.update_self] at this
      exact this.symm
  · rintro ⟨hold, hnew⟩ x hx
    apply applyWrites_congr
    by_cases hxt : x = t
    · subst hxt
      refine (hold hx).imp_right fun hsame => ?_
      rw [Function.update_of_ne (Ne.symm hne), Function.update_self, hsame]
    · by_cases hxt' : x = t'
      · subst hxt'
        refine (hnew hx).imp_right fun hsame => ?_
        rw [Function.update_of_ne hxt, Function.update_self, hsame]
      · right
        rw [Function.update_of_ne hxt, Function.update_of_ne hxt']

end Mcsos
