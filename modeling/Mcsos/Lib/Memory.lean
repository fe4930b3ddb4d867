import Mcsos.Lib.Bytes

/-!
# Byte memory

A memory that is addressed by numbers, with little-endian words in it.  A word is read by
`Bytes.word`; the lemmas say what is read after a word or a run of equal bytes was stored.
-/

namespace Mcsos

/-- A memory of bytes. -/
abbrev Memory : Type := ℕ → UInt8

namespace Memory

open Bytes

variable {mem mem' : Memory} {addr width a w v n : ℕ}

/-- Stores the low `width` bytes of `v`. -/
def store (mem : Memory) (addr width v : ℕ) : Memory := fun i =>
  if addr ≤ i ∧ i < addr + width then wordBytes v (i - addr) else mem i

/-- Stores `n` bytes `b`, one after the other. -/
def fill (mem : Memory) (addr : ℕ) (b : UInt8) : (n : ℕ) → Memory
  | 0 => mem
  | n + 1 => fill (fun i => if i = addr then b else mem i) (addr + 1) b n

/-- The two memories have the same bytes in a range. -/
def SameOn (lo hi : ℕ) (mem mem' : Memory) : Prop := ∀ i, lo ≤ i → i < hi → mem' i = mem i

theorem SameOn.mono {lo hi lo' hi' : ℕ} (h : SameOn lo hi mem mem') (hlo : lo ≤ lo')
    (hhi : hi' ≤ hi) :
    SameOn lo' hi' mem mem' :=
      fun i hi₁ hi₂ => h i (Nat.le_trans hlo hi₁) (Nat.lt_of_lt_of_le hi₂ hhi)

theorem SameOn.trans {lo hi : ℕ} {mem'' : Memory} (h : SameOn lo hi mem mem')
    (h' : SameOn lo hi mem' mem'') : SameOn lo hi mem mem'' := fun i hi₁ hi₂ =>
  (h' i hi₁ hi₂).trans (h i hi₁ hi₂)

theorem SameOn.refl (lo hi : ℕ) (mem : Memory) : SameOn lo hi mem mem := fun _ _ _ => rfl

theorem SameOn.word {lo hi : ℕ} (h : SameOn lo hi mem mem') (hlo : lo ≤ addr)
    (hhi : addr + width ≤ hi) :
    word mem' width addr = word mem width addr :=
  word_congr fun i hi => h (addr + i) (by omega) (by omega)

theorem sameOn_store {lo hi : ℕ} (h : hi ≤ addr ∨ addr + width ≤ lo) (v : ℕ) :
    SameOn lo hi mem (mem.store addr width v) := fun i hlo hhi => if_neg (by omega)

theorem word_store_self (mem : Memory) (addr width v : ℕ) :
    word (mem.store addr width v) width addr = v % 256 ^ width := by
  rw [← word_wordBytes]
  refine word_congr fun i hi => ?_
  rw [store, if_pos (by omega), Nat.add_sub_cancel_left, Nat.zero_add]

theorem word_store_of_disjoint (mem : Memory) (v : ℕ) (h : a + w ≤ addr ∨ addr + width ≤ a) :
    word (mem.store addr width v) w a = word mem w a :=
  have hsame : SameOn a (a + w) mem (mem.store addr width v) := sameOn_store h v
  hsame.word (Nat.le_refl _) (Nat.le_refl _)

theorem fill_apply (mem : Memory) (addr : ℕ) (b : UInt8) (n i : ℕ) :
    mem.fill addr b n i = if addr ≤ i ∧ i < addr + n then b else mem i := by
  induction n generalizing mem addr with
  | zero => rw [fill, if_neg (by omega)]
  | succ n ih =>
      rw [fill, ih]
      rcases Nat.lt_trichotomy i addr with hlt | rfl | hgt
      · rw [if_neg (by omega), if_neg (by omega), if_neg (by omega)]
      · rw [if_neg (by omega), if_pos rfl, if_pos (by omega)]
      · rw [if_neg (Nat.ne_of_gt hgt)]
        by_cases hin : i < addr + (n + 1)
        · rw [if_pos (by omega), if_pos (by omega)]
        · rw [if_neg (by omega), if_neg (by omega)]

end Memory

end Mcsos
