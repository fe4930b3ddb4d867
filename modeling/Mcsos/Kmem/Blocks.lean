import Mathlib.Data.List.Basic
import Mathlib.Data.Nat.Notation
import Mathlib.Tactic.Common

/-!
# Blocks side by side

The heap as a list of blocks, each with the size of its payload and whether it is free.  A block
starts where the one before it ends, after a header of 48 bytes, so the list determines the
addresses.
-/

namespace Mcsos.Kmem

/-- A block of the heap. -/
structure Blk where
  size : ℕ
  free : Bool
  deriving DecidableEq, Repr

/-- The bytes that a list of blocks takes up, with the headers. -/
def extent : List Blk → ℕ
  | [] => 0
  | b :: bs => 48 + b.size + extent bs

/-- The blocks from address `a` on, with their addresses. -/
def positions (a : ℕ) : List Blk → List (ℕ × Blk)
  | [] => []
  | b :: bs => (a, b) :: positions (a + 48 + b.size) bs

/-- The address of the last block, and `prev` if there is none. -/
def last (prev a : ℕ) : List Blk → ℕ
  | [] => prev
  | b :: bs => last a (a + 48 + b.size) bs

/-- The address of the first block, and `next` if there is none. -/
def linkTo (a : ℕ) (bs : List Blk) (next : ℕ) : ℕ :=
  match bs with
  | [] => next
  | _ :: _ => a

/-- A free block and the free blocks that follow it become one. -/
def absorb (b : Blk) : List Blk → List Blk
  | [] => [b]
  | c :: bs => if c.free then absorb ⟨b.size + (48 + c.size), b.free⟩ bs else b :: c :: bs

variable {a q : ℕ} {b c : Blk} {bs xs ys : List Blk}

theorem extent_append (xs ys : List Blk) : extent (xs ++ ys) = extent xs + extent ys := by
  induction xs with
  | nil => exact (Nat.zero_add _).symm
  | cons b xs ih => rw [List.cons_append, extent, extent, ih, Nat.add_assoc (48 + b.size)]

theorem extent_concat (xs : List Blk) (b : Blk) : extent (xs ++ [b]) = extent xs + 48 + b.size := by
  rw [extent_append, extent, extent, Nat.add_zero, ← Nat.add_assoc]

theorem length_le_extent (bs : List Blk) : 48 * bs.length ≤ extent bs := by
  induction bs with
  | nil => exact Nat.le_refl _
  | cons b bs ih =>
      rw [List.length_cons, extent]
      omega

theorem header_le_extent (hbs : bs ≠ []) : 48 ≤ extent bs := by
  have hlength := List.length_pos_of_ne_nil hbs
  have hle := length_le_extent bs
  omega

theorem linkTo_lt {bound : ℕ} (ha : a < bound) (bs : List Blk) : linkTo a bs 0 < bound := by
  cases bs with
  | nil => exact Nat.zero_lt_of_lt ha
  | cons b bs => exact ha

theorem positions_append (a : ℕ) (xs ys : List Blk) :
    positions a (xs ++ ys) = positions a xs ++ positions (a + extent xs) ys := by
  induction xs generalizing a with
  | nil => rfl
  | cons b xs ih =>
      rw [List.cons_append, positions, ih, positions, List.cons_append, extent, Nat.add_assoc a 48,
        Nat.add_assoc a]

theorem last_append_singleton (prev a : ℕ) (xs : List Blk) (b : Blk) :
    last prev a (xs ++ [b]) = a + extent xs := by
  induction xs generalizing prev a with
  | nil => rfl
  | cons c xs ih =>
      rw [List.cons_append, last, ih, extent]
      omega

/-- A position splits the list of blocks. -/
theorem mem_positions :
    (q, b) ∈ positions a bs ↔ ∃ xs ys, bs = xs ++ b :: ys ∧ q = a + extent xs := by
  constructor
  · intro h
    induction bs generalizing a with
    | nil => cases h
    | cons c bs ih =>
        rcases List.mem_cons.mp h with heq | hmem
        · obtain ⟨rfl, rfl⟩ := Prod.mk.inj heq
          exact ⟨[], bs, rfl, rfl⟩
        · obtain ⟨xs, ys, rfl, rfl⟩ := ih hmem
          refine ⟨c :: xs, ys, rfl, ?_⟩
          rw [extent]
          omega
  · rintro ⟨xs, ys, rfl, rfl⟩
    rw [positions_append]
    exact List.mem_append_right _ List.mem_cons_self

theorem le_of_mem_positions (h : (q, b) ∈ positions a bs) :
    a ≤ q ∧ q + 48 + b.size ≤ a + extent bs := by
  obtain ⟨xs, ys, rfl, rfl⟩ := mem_positions.mp h
  rw [extent_append, extent]
  omega

/-- Two blocks are the same or do not overlap. -/
theorem positions_disjoint {r : ℕ} (h : (q, b) ∈ positions a bs) (h' : (r, c) ∈ positions a bs) :
    (q = r ∧ b = c) ∨ q + 48 + b.size ≤ r ∨ r + 48 + c.size ≤ q := by
  induction bs generalizing a with
  | nil => cases h
  | cons d bs ih =>
      rcases List.mem_cons.mp h with heq | hmem
      · obtain ⟨rfl, rfl⟩ := Prod.mk.inj heq
        rcases List.mem_cons.mp h' with heq' | hmem'
        · obtain ⟨rfl, rfl⟩ := Prod.mk.inj heq'
          exact Or.inl ⟨rfl, rfl⟩
        · exact Or.inr (Or.inl (le_of_mem_positions hmem').1)
      · rcases List.mem_cons.mp h' with heq' | hmem'
        · obtain ⟨rfl, rfl⟩ := Prod.mk.inj heq'
          exact Or.inr (Or.inr (le_of_mem_positions hmem).1)
        · exact ih hmem hmem'

/-- A block starts at `q`. -/
def Start (a : ℕ) (bs : List Blk) (q : ℕ) : Prop := ∃ b, (q, b) ∈ positions a bs

theorem not_start_nil : ¬ Start a [] q := by
  rintro ⟨b, hb⟩
  exact List.not_mem_nil hb

theorem start_append : Start a (xs ++ ys) q ↔ Start a xs q ∨ Start (a + extent xs) ys q := by
  simp only [Start, positions_append, List.mem_append, exists_or]

theorem start_cons : Start a (b :: bs) q ↔ q = a ∨ Start (a + 48 + b.size) bs q := by
  simp only [Start, positions, List.mem_cons, exists_or]
  refine or_congr_left ⟨?_, fun heq => ⟨b, heq ▸ rfl⟩⟩
  rintro ⟨c, hc⟩
  exact (Prod.mk.inj hc).1

/-! ## Merging -/

theorem absorb_eq_cons (b : Blk) (ys : List Blk) :
    ∃ size zs, absorb b ys = ⟨size, b.free⟩ :: zs := by
  induction ys generalizing b with
  | nil => exact ⟨b.size, [], rfl⟩
  | cons c ys ih =>
      rw [absorb]
      split
      · exact ih ⟨b.size + (48 + c.size), b.free⟩
      · exact ⟨b.size, c :: ys, rfl⟩

theorem not_mem_singleton_of_free (hb : b.free = true) (hc : c.free = false) :
    (q, c) ∉ [(a, b)] := by
  intro h
  obtain ⟨-, rfl⟩ := Prod.mk.inj (List.mem_singleton.mp h)
  exact Bool.false_ne_true (hc.symm.trans hb)

theorem mem_positions_cons_iff (hb : b.free = true) (hc : c.free = false) :
    (q, c) ∈ positions a (b :: bs) ↔ (q, c) ∈ positions (a + 48 + b.size) bs := by
  rw [positions, List.mem_cons, ← List.mem_singleton]
  exact or_iff_right (not_mem_singleton_of_free hb hc)

/-- Blocks that are not free stay where they are. -/
theorem mem_positions_absorb_iff (hb : b.free = true) (hc : c.free = false) :
    (q, c) ∈ positions a (absorb b ys) ↔ (q, c) ∈ positions (a + 48 + b.size) ys := by
  induction ys generalizing b with
  | nil => exact mem_positions_cons_iff hb hc
  | cons d ys ih =>
      rw [absorb]
      split
      next hd =>
        have hmerged : (⟨b.size + (48 + d.size), b.free⟩ : Blk).free = true := hb
        have haddr : a + 48 + (b.size + (48 + d.size)) = a + 48 + b.size + 48 + d.size := by omega
        rw [ih hmerged, mem_positions_cons_iff hd hc, haddr]
      next => exact mem_positions_cons_iff hb hc

/-- The sizes of the blocks: positive multiples of 16. -/
def SizesOk (bs : List Blk) : Prop := ∀ b ∈ bs, 0 < b.size ∧ 16 ∣ b.size

theorem sizesOk_append : SizesOk (xs ++ ys) ↔ SizesOk xs ∧ SizesOk ys := List.forall_mem_append

theorem sizesOk_cons : SizesOk (b :: bs) ↔ (0 < b.size ∧ 16 ∣ b.size) ∧ SizesOk bs :=
  List.forall_mem_cons

theorem SizesOk.extent (h : SizesOk bs) : 16 ∣ extent bs := by
  induction bs with
  | nil => exact Nat.dvd_zero 16
  | cons b bs ih =>
      obtain ⟨hb, hbs⟩ := sizesOk_cons.mp h
      have hrest := ih hbs
      have hsize := hb.2
      rw [Kmem.extent]
      omega

end Mcsos.Kmem
