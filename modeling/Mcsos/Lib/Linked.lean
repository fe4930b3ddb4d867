import Mathlib.Data.List.Nodup

/-!
# Singly linked lists

`Linked next null p l`: the nodes met from the pointer `p` on, by following `next`, are those of
`l`, and the last one is followed by `null`.
-/

namespace Mcsos

variable {α : Type} {next next' : α → α} {null p t : α} {l : List α}

/-- The list from `p` on is `l`. -/
def Linked (next : α → α) (null : α) : α → List α → Prop
  | p, [] => p = null
  | p, t :: l => p = t ∧ t ≠ null ∧ Linked next null (next t) l

theorem Linked.null_notMem (h : Linked next null p l) : null ∉ l := by
  induction l generalizing p with
  | nil => exact List.not_mem_nil
  | cons t l ih =>
    obtain ⟨rfl, hne, hrest⟩ := h
    exact List.not_mem_cons_of_ne_of_not_mem hne.symm (ih hrest)

theorem Linked.eq_null_iff (h : Linked next null p l) : p = null ↔ l = [] := by
  cases l with
  | nil => exact ⟨fun _ => rfl, fun _ => h⟩
  | cons t l =>
    obtain ⟨rfl, hne, -⟩ := h
    exact ⟨fun heq => absurd heq hne, fun heq => absurd heq (List.cons_ne_nil _ _)⟩

theorem Linked.head_mem (h : Linked next null p l) (hp : p ≠ null) : p ∈ l := by
  cases l with
  | nil => exact absurd h hp
  | cons t l => exact h.1 ▸ List.mem_cons_self

theorem Linked.next_mem (h : Linked next null p l) (ht : t ∈ l) (hnext : next t ≠ null) :
    next t ∈ l := by
  induction l generalizing p with
  | nil => exact absurd ht List.not_mem_nil
  | cons u l ih =>
    obtain ⟨rfl, -, hrest⟩ := h
    rcases List.mem_cons.mp ht with rfl | ht
    · exact List.mem_cons_of_mem _ (hrest.head_mem hnext)
    · exact List.mem_cons_of_mem _ (ih hrest ht)

/-- Only the nodes of the list matter. -/
theorem Linked.congr (h : Linked next null p l) (hsame : ∀ u ∈ l, next' u = next u) :
    Linked next' null p l := by
  induction l generalizing p with
  | nil => exact h
  | cons t l ih =>
    obtain ⟨rfl, hne, hrest⟩ := h
    refine ⟨rfl, hne, ?_⟩
    rw [hsame p List.mem_cons_self]
    exact ih hrest fun u hu => hsame u (List.mem_cons_of_mem _ hu)

/-- A pointer determines its list. -/
theorem Linked.unique {l' : List α} (h : Linked next null p l) (h' : Linked next null p l') :
    l = l' := by
  induction l generalizing p l' with
  | nil => exact (h'.eq_null_iff.mp h).symm
  | cons t l ih =>
    obtain ⟨rfl, hne, hrest⟩ := h
    cases l' with
    | nil => exact absurd h' hne
    | cons u l' =>
      obtain ⟨rfl, -, hrest'⟩ := h'
      rw [ih hrest hrest']

/-- A node linked behind the last one, `e`. -/
theorem Linked.snoc {e : α} (h : Linked next null p (l ++ [e]))
    (hsame : ∀ u ∈ l, next' u = next u) (he : next' e = t) (ht : next' t = null) (hne : t ≠ null) :
    Linked next' null p (l ++ [e] ++ [t]) := by
  induction l generalizing p with
  | nil =>
    obtain ⟨rfl, hp, -⟩ := h
    exact ⟨rfl, hp, he, hne, ht⟩
  | cons u l ih =>
    obtain ⟨rfl, hp, hrest⟩ := h
    refine ⟨rfl, hp, ?_⟩
    rw [hsame p List.mem_cons_self]
    exact ih hrest fun v hv => hsame v (List.mem_cons_of_mem _ hv)

/-- A list whose pointers do not leave a set stays in it. -/
theorem Linked.subset {S : α → Prop} (h : Linked next null p l) (hp : p ≠ null → S p)
    (hS : ∀ u, S u → next u ≠ null → S (next u)) : ∀ u ∈ l, S u := by
  induction l generalizing p with
  | nil => exact fun u hu => absurd hu List.not_mem_nil
  | cons t l ih =>
    obtain ⟨rfl, hne, hrest⟩ := h
    intro u hu
    rcases List.mem_cons.mp hu with rfl | hu
    · exact hp hne
    · exact ih hrest (hS p (hp hne)) u hu

end Mcsos
