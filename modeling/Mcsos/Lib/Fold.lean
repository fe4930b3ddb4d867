import Mathlib.Data.List.Range
import Mathlib.Logic.Function.Basic

/-!
# Checksums as folds

A checksum that mixes one byte after the other into a word tells any two inputs apart that differ in
one place, if mixing in a byte can be undone and different bytes lead to different words.
-/

namespace Mcsos

variable {σ β : Type} {f : σ → β → σ} {src src' : ℕ → β} {j n : ℕ}

theorem foldl_range_congr (hsame : ∀ i < n, src i = src' i) (init : σ) :
    (List.range n).foldl (fun s i => f s (src i)) init =
      (List.range n).foldl (fun s i => f s (src' i)) init := by
  induction n with
  | zero => rfl
  | succ n ih =>
    rw [List.range_succ, List.foldl_append, List.foldl_append, ih fun i hi => hsame i (by omega)]
    simp only [List.foldl_cons, List.foldl_nil, hsame n (Nat.lt_succ_self n)]

/-- A change in one place is seen at the end. -/
theorem foldl_range_ne (hword : ∀ b, Function.Injective fun s => f s b)
    (hbyte : ∀ s, Function.Injective (f s)) (hj : j < n) (hne : src j ≠ src' j)
    (hsame : ∀ i < n, i ≠ j → src i = src' i) (init : σ) :
    (List.range n).foldl (fun s i => f s (src i)) init ≠
      (List.range n).foldl (fun s i => f s (src' i)) init := by
  induction n with
  | zero => exact absurd hj (Nat.not_lt_zero j)
  | succ n ih =>
    rw [List.range_succ, List.foldl_append, List.foldl_append]
    simp only [List.foldl_cons, List.foldl_nil]
    rcases Nat.lt_succ_iff_lt_or_eq.mp hj with hlt | rfl
    · -- the words differ already, and the same byte is mixed into both
      rw [hsame n (Nat.lt_succ_self n) (Nat.ne_of_gt hlt)]
      exact fun heq => ih hlt (fun i hi => hsame i (Nat.lt_succ_of_lt hi)) (hword _ heq)
    · rw [foldl_range_congr fun i hi => hsame i (Nat.lt_succ_of_lt hi) (Nat.ne_of_lt hi)]
      exact fun heq => hne (hbyte _ heq)

end Mcsos
