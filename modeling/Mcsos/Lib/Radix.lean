import Mathlib.Data.Nat.Notation
import Mathlib.Logic.Function.Basic
import Mathlib.Tactic.SplitIfs

/-!
# Trees of tables

A memory of tables `π → κ → ε`, in which `child` reads an entry as a pointer to another table, or as
none.  A path is a list of indices, the last one first.

`Tree` says that no table is reached by two paths.  Then a table can be changed without an effect on
any path that does not go through it: `tableAt_setLeaf` is for tables at the end of the longest
paths, and `tableAt_install` for a new table below an entry that had none.
-/

namespace Mcsos

namespace Radix

variable {π κ ε : Type} [DecidableEq π] [DecidableEq κ] (child : ε → Option π) (root : π)

/-- The table a path leads to. -/
def tableAt (mem : π → κ → ε) : List κ → Option π
  | [] => some root
  | i :: l => (tableAt mem l).bind fun t => child (mem t i)

/-- No table is reached by two paths of at most `depth` indices. -/
def Tree (depth : ℕ) (mem : π → κ → ε) : Prop :=
  ∀ l l' t, l.length ≤ depth → l'.length ≤ depth → tableAt child root mem l = some t →
    tableAt child root mem l' = some t → l = l'

/-- Replaces one entry. -/
def setEntry (mem : π → κ → ε) (t : π) (i : κ) (e : ε) : π → κ → ε :=
  Function.update mem t (Function.update (mem t) i e)

variable {child root} {depth : ℕ} {mem : π → κ → ε} {t u : π} {i j : κ} {e : ε} {l : List κ}

theorem setEntry_self : setEntry mem t i e t i = e := by
  rw [setEntry, Function.update_self, Function.update_self]

theorem setEntry_of_ne_index (hj : j ≠ i) : setEntry mem t i e t j = mem t j := by
  rw [setEntry, Function.update_self, Function.update_of_ne hj]

theorem setEntry_of_ne_table (hu : u ≠ t) : setEntry mem t i e u = mem u :=
  Function.update_of_ne hu ..

omit [DecidableEq π] [DecidableEq κ] in
theorem Tree.ne (h : Tree child root depth mem) {l' : List κ} (hl : l.length ≤ depth)
    (hl' : l'.length ≤ depth) (ht : tableAt child root mem l = some t)
    (hu : tableAt child root mem l' = some u) (hne : l ≠ l') : t ≠ u := by
  rintro rfl
  exact hne (h l l' t hl hl' ht hu)

/-- An entry at the end of the longest paths leads nowhere else. -/
theorem tableAt_setLeaf (h : Tree child root depth mem) (hl : l.length = depth)
    (ht : tableAt child root mem l = some t) :
    ∀ l' : List κ, l'.length ≤ depth →
      tableAt child root (setEntry mem t i e) l' = tableAt child root mem l' := by
  intro l' hl'
  induction l' with
  | nil => rfl
  | cons j l' ih =>
      rw [List.length_cons] at hl'
      rw [tableAt, tableAt, ih (by omega)]
      cases hu : tableAt child root mem l' with
      | none => rfl
      | some u =>
          have hne : u ≠ t := by
            refine h.ne (by omega) (Nat.le_of_eq hl) hu ht ?_
            rintro rfl
            omega
          rw [Option.bind_some, Option.bind_some, setEntry_of_ne_table hne]

variable {page : κ → ε}

/-- The entries of the tables that were there before a new table came in below entry `i` of `t`. -/
theorem setEntry_install (h : Tree child root depth mem) (hl : l.length ≤ depth)
    (ht : tableAt child root mem l = some t) {l' : List κ} {w : π} (hl' : l'.length ≤ depth)
    (hw : tableAt child root mem l' = some w) (hwu : w ≠ u) :
    setEntry (Function.update mem u page) t i e w j = if j :: l' = i :: l then e else mem w j := by
  by_cases hwt : w = t
  · subst hwt
    obtain rfl := h l' l w hl' hl hw ht
    by_cases hji : j = i
    · subst hji
      rw [setEntry_self, if_pos rfl]
    · have hother : j :: l' ≠ i :: l' := fun heq => hji (List.cons.inj heq).1
      rw [setEntry_of_ne_index hji, Function.update_of_ne hwu, if_neg hother]
  · have hother : j :: l' ≠ i :: l := by
      intro heq
      rw [(List.cons.inj heq).2, ht] at hw
      exact hwt (Option.some.inj hw).symm
    rw [setEntry_of_ne_table hwt, Function.update_of_ne hwu, if_neg hother]

/-- A new table `u` without children, below entry `i` of the table `t`. -/
theorem tableAt_install (h : Tree child root depth mem) (hl : l.length < depth)
    (ht : tableAt child root mem l = some t) (hnone : child (mem t i) = none)
    (hfresh : ∀ l' : List κ, l'.length ≤ depth → tableAt child root mem l' ≠ some u)
    (he : child e = some u) (hpage : ∀ j, child (page j) = none) :
    ∀ l' : List κ, l'.length ≤ depth →
      tableAt child root (setEntry (Function.update mem u page) t i e) l' =
        if l' = i :: l then some u else tableAt child root mem l' := by
  have hut : t ≠ u := fun heq => hfresh l (Nat.le_of_lt hl) (heq ▸ ht)
  intro l' hl'
  induction l' with
  | nil => rw [if_neg (List.cons_ne_nil i l).symm, tableAt, tableAt]
  | cons j l' ih =>
      rw [List.length_cons] at hl'
      rw [tableAt, ih (by omega)]
      by_cases hnew : l' = i :: l
      · -- below the new table there is nothing
        subst hnew
        have hlong : j :: i :: l ≠ i :: l := by simp
        rw [if_pos rfl, if_neg hlong, Option.bind_some, setEntry_of_ne_table hut.symm,
          Function.update_self, hpage, tableAt, tableAt, ht, Option.bind_some, hnone,
          Option.bind_none]
      · rw [if_neg hnew, tableAt]
        cases hw : tableAt child root mem l' with
        | none =>
            have hother : j :: l' ≠ i :: l := by
              intro heq
              rw [(List.cons.inj heq).2, ht] at hw
              cases hw
            rw [if_neg hother, Option.bind_none, Option.bind_none]
        | some w =>
            have hwu : w ≠ u := fun heq => hfresh l' (by omega) (heq ▸ hw)
            rw [Option.bind_some, Option.bind_some,
              setEntry_install h (Nat.le_of_lt hl) ht (by omega) hw hwu]
            split_ifs
            · exact he
            · rfl

theorem Tree.setLeaf (h : Tree child root depth mem) (hl : l.length = depth)
    (ht : tableAt child root mem l = some t) : Tree child root depth (setEntry mem t i e) := by
  intro l₁ l₂ w h₁ h₂ hw₁ hw₂
  rw [tableAt_setLeaf h hl ht _ h₁] at hw₁
  rw [tableAt_setLeaf h hl ht _ h₂] at hw₂
  exact h l₁ l₂ w h₁ h₂ hw₁ hw₂

theorem Tree.install (h : Tree child root depth mem) (hl : l.length < depth)
    (ht : tableAt child root mem l = some t) (hnone : child (mem t i) = none)
    (hfresh : ∀ l' : List κ, l'.length ≤ depth → tableAt child root mem l' ≠ some u)
    (he : child e = some u) (hpage : ∀ j, child (page j) = none) :
    Tree child root depth (setEntry (Function.update mem u page) t i e) := by
  have hpaths := tableAt_install h hl ht hnone hfresh he hpage
  intro l₁ l₂ w h₁ h₂ hw₁ hw₂
  rw [hpaths l₁ h₁] at hw₁
  rw [hpaths l₂ h₂] at hw₂
  split_ifs at hw₁ hw₂ with heq₁ heq₂ heq₂
  · exact heq₁.trans heq₂.symm
  · exact absurd (hw₂.trans hw₁.symm) (hfresh l₂ h₂)
  · exact absurd (hw₁.trans hw₂.symm) (hfresh l₁ h₁)
  · exact h l₁ l₂ w h₁ h₂ hw₁ hw₂

end Radix

end Mcsos
