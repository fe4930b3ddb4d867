import Mathlib.Algebra.Group.Nat.Defs
import Mcsos.Lib.Copy

/-!
# Copying memory

Model of `memcpy` and `memmove` in `kernel/lib/memory.c`.  The memory is flat: a byte for every
64-bit address.  Pointers are 64-bit words, and the loops move them as the source does, so the last
step of a loop may carry a pointer past the end of the address space to zero.  A function returns
the memory it leaves together with its result.

`memcpy` copies upwards.  `memmove` copies upwards when the destination lies below the source and
downwards otherwise, which is the order in which no source byte is overwritten before it is read.
-/

namespace Mcsos.Klib

/-- A byte for every 64-bit address. -/
abbrev Flat : Type := UInt64 → UInt8

/-- `while (count-- != 0u) { *d++ = *s++; }` -/
def copyUp (mem : Flat) (d s : UInt64) : (count : ℕ) → Flat
  | 0 => mem
  | count + 1 => copyUp (Function.update mem d (mem s)) (d + 1) (s + 1) count

/-- `while (count-- != 0u) { *--d = *--s; }` -/
def copyDown (mem : Flat) (d s : UInt64) : (count : ℕ) → Flat
  | 0 => mem
  | count + 1 => copyDown (Function.update mem (d - 1) (mem (s - 1))) (d - 1) (s - 1) count

def memcpy (mem : Flat) (dest src count : UInt64) : Flat × UInt64 :=
  (copyUp mem dest src count.toNat, dest)

def memmove (mem : Flat) (dest src count : UInt64) : Flat × UInt64 :=
  if dest = src ∨ count = 0 then (mem, dest)
  else if dest < src then (copyUp mem dest src count.toNat, dest)
  else (copyDown mem (dest + count) (src + count) count.toNat, dest)

/-! ### Ranges of addresses -/

/-- The range `[p, p + n)` lies inside the address space; it may end at its last byte. -/
def Fits (p n : UInt64) : Prop := p.toNat + n.toNat ≤ 2 ^ 64

/-- The ranges `[p, p + n)` and `[q, q + n)` have no byte in common. -/
def Apart (p q n : UInt64) : Prop := p.toNat + n.toNat ≤ q.toNat ∨ q.toNat + n.toNat ≤ p.toNat

variable {mem : Flat} {d s n p x : UInt64} {i : ℕ}

/-- The `i`th byte of a range that fits. -/
theorem Fits.toNat_add (h : Fits p n) (hi : i < n.toNat) :
    (p + UInt64.ofNat i).toNat = p.toNat + i := by
  have hlt : p.toNat + i < 2 ^ 64 := Nat.lt_of_lt_of_le (Nat.add_lt_add_left hi _) h
  have hi64 : i < 2 ^ 64 := by omega
  rw [UInt64.toNat_add, UInt64.toNat_ofNat', Nat.mod_eq_of_lt hi64, Nat.mod_eq_of_lt hlt]

/-- The address after `i + 1` steps from `p`. -/
theorem add_one_add (p : UInt64) (i : ℕ) : p + 1 + UInt64.ofNat i = p + UInt64.ofNat (i + 1) := by
  rw [UInt64.add_assoc, UInt64.add_comm 1, ← UInt64.ofNat_one, ← UInt64.ofNat_add]

/-- The bytes of a range that fits, counted from its end. -/
theorem add_sub_ofNat (p : UInt64) (hi : i < n.toNat) :
    p + n - UInt64.ofNat (i + 1) = p + UInt64.ofNat (n.toNat - 1 - i) := by
  have hn : n = UInt64.ofNat (n.toNat - 1 - i) + UInt64.ofNat (i + 1) := by
    rw [← UInt64.ofNat_add, show n.toNat - 1 - i + (i + 1) = n.toNat by omega, UInt64.ofNat_toNat]
  calc p + n - UInt64.ofNat (i + 1)
      = p + (UInt64.ofNat (n.toNat - 1 - i) + UInt64.ofNat (i + 1)) -
        UInt64.ofNat (i + 1) := by rw [← hn]
    _ = p + UInt64.ofNat (n.toNat - 1 - i) := by rw [← UInt64.add_assoc, UInt64.add_sub_cancel]

/-! ### The loops as copies -/

theorem copyUp_eq (mem : Flat) (d s : UInt64) (count : ℕ) :
    copyUp mem d s count =
      Copy.copy mem (fun i => d + UInt64.ofNat i) (fun i => s + UInt64.ofNat i) count := by
  induction count generalizing mem d s with
  | zero => rfl
  | succ count ih =>
      have hnext : ∀ p : UInt64, (fun i => p + 1 + UInt64.ofNat i) = fun i =>
        p + UInt64.ofNat (i + 1) :=
        fun p => funext (add_one_add p)
      have hfirst : ∀ p : UInt64, p + UInt64.ofNat 0 = p := UInt64.add_zero
      rw [copyUp, ih, Copy.copy, hnext d, hnext s, hfirst d, hfirst s]

theorem copyDown_eq (mem : Flat) (d s : UInt64) (count : ℕ) :
    copyDown mem d s count =
      Copy.copy mem (fun i => d - UInt64.ofNat (i + 1))
        (fun i => s - UInt64.ofNat (i + 1)) count := by
  induction count generalizing mem d s with
  | zero => rfl
  | succ count ih =>
      have hnext : ∀ p : UInt64, (fun i => p - 1 - UInt64.ofNat (i + 1)) = fun i =>
        p - UInt64.ofNat (i + 1 + 1) := by
        intro p
        funext i
        rw [UInt64.ofNat_add (i + 1) 1, UInt64.ofNat_one]
        grind
      have hfirst : ∀ p : UInt64, p - UInt64.ofNat (0 + 1) = p - 1 := fun p => rfl
      rw [copyDown, ih, Copy.copy, hnext d, hnext s, hfirst d, hfirst s]

/-! ### When the loops are safe -/

/-- An upward copy is safe when no destination byte is a later source byte. -/
theorem safe_up (hd : Fits d n) (hs : Fits s n) (horder : Apart d s n ∨ d ≤ s) :
    Copy.Safe (fun i => d + UInt64.ofNat i) (fun i => s + UInt64.ofNat i) n.toNat where
  distinct := by
    intro i j hij hj heq
    have hnum := congrArg UInt64.toNat heq
    rw [hd.toNat_add (Nat.lt_trans hij hj), hd.toNat_add hj] at hnum
    omega
  unread := by
    intro i j hij hj heq
    have hnum := congrArg UInt64.toNat heq
    rw [hd.toNat_add (Nat.lt_trans hij hj), hs.toNat_add hj] at hnum
    rcases horder with hapart | hle
    · unfold Apart at hapart
      omega
    · have hle' : d.toNat ≤ s.toNat := hle
      omega

/-- A downward copy is safe when no destination byte is an earlier source byte. -/
theorem safe_down (hd : Fits d n) (hs : Fits s n) (hle : s ≤ d) :
    Copy.Safe (fun i => d + n - UInt64.ofNat (i + 1)) (fun i => s + n - UInt64.ofNat (i + 1))
      n.toNat where
  distinct := by
    intro i j hij hj heq
    have hnum := congrArg UInt64.toNat heq
    rw [add_sub_ofNat d (Nat.lt_trans hij hj), add_sub_ofNat d hj, hd.toNat_add (by omega),
      hd.toNat_add (by omega)] at hnum
    omega
  unread := by
    intro i j hij hj heq
    have hnum := congrArg UInt64.toNat heq
    rw [add_sub_ofNat d (Nat.lt_trans hij hj), add_sub_ofNat s hj, hd.toNat_add (by omega),
      hs.toNat_add (by omega)] at hnum
    have hle' : s.toNat ≤ d.toNat := hle
    omega

/-! ### What the functions leave -/

/-- The memory `mem'` holds the `n` bytes that `mem` has at `s` at the address `d`, and is `mem`
elsewhere. -/
structure Moved (mem : Flat) (d s n : UInt64) (mem' : Flat) : Prop where
  copied : ∀ i, i < n → mem' (d + i) = mem (s + i)
  frame : ∀ x : UInt64, x.toNat < d.toNat ∨ d.toNat + n.toNat ≤ x.toNat → mem' x = mem x

/-- The contents and the frame determine the memory. -/
theorem Moved.unique {mem₁ mem₂ : Flat} (h₁ : Moved mem d s n mem₁) (h₂ : Moved mem d s n mem₂) :
    mem₁ = mem₂ := by
  funext x
  by_cases hx : x.toNat < d.toNat ∨ d.toNat + n.toNat ≤ x.toNat
  · rw [h₁.frame x hx, h₂.frame x hx]
  · obtain ⟨hlow, hhigh⟩ := not_or.mp hx
    have hoff : x - d < n := by
      rw [UInt64.lt_iff_toNat_lt, UInt64.toNat_sub_of_le x d (Nat.le_of_not_lt hlow)]
      omega
    have hx' : x = d + (x - d) := by grind
    rw [hx', h₁.copied _ hoff, h₂.copied _ hoff]

/-- A safe copy whose cells are those of the two ranges moves them. -/
theorem moved_of_safe {dst src : ℕ → UInt64} (hd : Fits d n) (h : Copy.Safe dst src n.toNat)
    (hcover : ∀ i, i < n.toNat →
      ∃ j, j < n.toNat ∧ dst j = d + UInt64.ofNat i ∧ src j = s + UInt64.ofNat i)
    (hrange : ∀ j, j < n.toNat → ∃ i, i < n.toNat ∧ dst j = d + UInt64.ofNat i) :
    Moved mem d s n (Copy.copy mem dst src n.toNat) where
  copied := by
    intro i hi
    obtain ⟨j, hj, hdst, hsrc⟩ := hcover i.toNat hi
    rw [UInt64.ofNat_toNat] at hdst hsrc
    rw [← hdst, ← hsrc, h.copy_dst hj]
  frame := by
    intro x hx
    refine Copy.copy_of_ne fun j hj hxj => ?_
    obtain ⟨i, hi, hdst⟩ := hrange j hj
    have hnum : x.toNat = d.toNat + i := by rw [hxj, hdst, hd.toNat_add hi]
    omega

theorem copyUp_moved (mem : Flat) (hd : Fits d n) (hs : Fits s n) (horder : Apart d s n ∨ d ≤ s) :
    Moved mem d s n (copyUp mem d s n.toNat) := by
  rw [copyUp_eq]
  exact moved_of_safe hd (safe_up hd hs horder) (fun i hi => ⟨i, hi, rfl, rfl⟩) fun i hi =>
    ⟨i, hi, rfl⟩

theorem copyDown_moved (mem : Flat) (hd : Fits d n) (hs : Fits s n) (hle : s ≤ d) :
    Moved mem d s n (copyDown mem (d + n) (s + n) n.toNat) := by
  rw [copyDown_eq]
  refine moved_of_safe hd (safe_down hd hs hle) (fun i hi => ?_) fun j hj => ?_
  · -- byte `i` of the range is copied in turn `n - 1 - i`
    have hturn : n.toNat - 1 - i < n.toNat := by omega
    refine ⟨n.toNat - 1 - i, hturn, ?_, ?_⟩
    · rw [add_sub_ofNat d hturn, show n.toNat - 1 - (n.toNat - 1 - i) = i by omega]
    · rw [add_sub_ofNat s hturn, show n.toNat - 1 - (n.toNat - 1 - i) = i by omega]
  · exact ⟨n.toNat - 1 - j, by omega, add_sub_ofNat d hj⟩

theorem memcpy_moved (mem : Flat) (hd : Fits d n) (hs : Fits s n) (horder : Apart d s n ∨ d ≤ s) :
    Moved mem d s n (memcpy mem d s n).1 := copyUp_moved mem hd hs horder

theorem memmove_moved (mem : Flat) (hd : Fits d n) (hs : Fits s n) :
    Moved mem d s n (memmove mem d s n).1 := by
  by_cases hskip : d = s ∨ n = 0
  · -- nothing is copied: the two ranges are the same, or empty
    rw [memmove, if_pos hskip]
    refine ⟨fun i hi => ?_, fun x _ => rfl⟩
    rcases hskip with rfl | rfl
    · rfl
    · exact absurd hi UInt64.not_lt_zero
  · by_cases hlt : d < s
    · rw [memmove, if_neg hskip, if_pos hlt]
      exact copyUp_moved mem hd hs (Or.inr (UInt64.le_of_lt hlt))
    · rw [memmove, if_neg hskip, if_neg hlt]
      exact copyDown_moved mem hd hs (UInt64.not_lt.mp hlt)

/-- `memmove` moves the bytes for every overlap of the two ranges, and `memcpy` does the same when
the ranges have no byte in common or the destination does not lie above the source. -/
theorem memmove_overlap_safe (mem : Flat) (d s n : UInt64) (hd : d.toNat + n.toNat ≤ 2 ^ 64)
    (hs : s.toNat + n.toNat ≤ 2 ^ 64) :
    (∀ i, i < n → (memmove mem d s n).1 (d + i) = mem (s + i)) ∧
      (∀ x : UInt64, x.toNat < d.toNat ∨ d.toNat + n.toNat ≤ x.toNat →
        (memmove mem d s n).1 x = mem x) ∧
      ((d.toNat + n.toNat ≤ s.toNat ∨ s.toNat + n.toNat ≤ d.toNat) ∨ d ≤ s →
        (memcpy mem d s n).1 = (memmove mem d s n).1) := by
  have hmoved : Moved mem d s n (memmove mem d s n).1 := memmove_moved mem hd hs
  refine ⟨hmoved.copied, hmoved.frame, fun horder => ?_⟩
  exact (memcpy_moved mem hd hs horder).unique hmoved

/-- Four bytes moved up by one and a range that ends with the address space moved down by one. -/
theorem memmove_overlap_safe_ends :
    (memmove (fun x => x.toUInt8) 11 10 4).1 14 = 13 ∧
      (memmove (fun x => x.toUInt8) 18446744073709551611 18446744073709551612 4).1
        18446744073709551614 = 255 := by
  have hup := memmove_overlap_safe (fun x => x.toUInt8) 11 10 4 (by decide) (by decide)
  have hdown :=
    memmove_overlap_safe (fun x => x.toUInt8) 18446744073709551611 18446744073709551612 4
    (by decide) (by decide)
  exact ⟨hup.1 3 (by decide), hdown.1 3 (by decide)⟩

end Mcsos.Klib
