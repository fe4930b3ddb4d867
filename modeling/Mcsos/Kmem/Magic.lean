import Mcsos.Kmem.AllocFree

/-!
# Magic numbers

`kmem_free_checked` trusts what it finds in front of a pointer if the magic number is there.
`MagicIn` says where aligned words with that number can be, and the lemmas what the stores of the
heap do to these places.

The number is odd, and its low byte is not one that the heap stores for another reason in the low
byte of an aligned word: the sizes and the links to the next block are in the other halves, and the
links back are multiples of 16.
-/

namespace Mcsos.Kmem

open Bytes Memory

variable {h : Heap} {mem : Memory} {H H' : ℕ → Prop} {a addr width n v wanted : ℕ} {b c : Blk}
  {bs xs ys : List Blk}

/-! ## Memory -/

/-- The aligned words with the magic number are in `H`. -/
def MagicIn (mem : Memory) (H : ℕ → Prop) : Prop := ∀ q, 16 ∣ q → word mem 8 q = magic → H q

namespace MagicIn

theorem mono (hmem : MagicIn mem H) (hH : ∀ q, H q → H' q) : MagicIn mem H' := fun q hdvd hq =>
  hH q (hmem q hdvd hq)

theorem low_byte {q : ℕ} (hq : word mem 8 q = magic) : (mem q).toNat = 0x41 := by
  rw [← word_mod_256 mem (by omega : 0 < 8), hq]
  decide

/-- A store to the second half of 16 bytes. -/
theorem store_high (hmem : MagicIn mem H) (haddr : addr % 16 = 8) (hwidth : width ≤ 8) :
    MagicIn (mem.store addr width v) H := by
  intro q hdvd hq
  rw [word_store_of_disjoint _ _ (by omega)] at hq
  exact hmem q hdvd hq

/-- A store of another low byte. -/
theorem store_low (hmem : MagicIn mem H) (haddr : 16 ∣ addr) (hpos : 0 < width) (hwidth : width ≤ 8)
    (hv : v % 256 ≠ 0x41) : MagicIn (mem.store addr width v) fun q => H q ∧ q ≠ addr := by
  intro q hdvd hq
  have hne : q ≠ addr := by
    rintro rfl
    have hbyte := low_byte hq
    rw [store, if_pos (by omega), Nat.sub_self, wordBytes, pow_zero, Nat.div_one,
      UInt8.toNat_ofNat'] at hbyte
    exact hv hbyte
  rw [word_store_of_disjoint _ _ (by omega)] at hq
  exact ⟨hmem q hdvd hq, hne⟩

theorem store_magic (hmem : MagicIn mem H) (haddr : 16 ∣ addr) :
    MagicIn (mem.store addr 8 v) fun q => H q ∨ q = addr := by
  intro q hdvd hq
  by_cases heq : q = addr
  · exact Or.inr heq
  · rw [word_store_of_disjoint _ _ (by omega)] at hq
    exact Or.inl (hmem q hdvd hq)

theorem fill_zero (hmem : MagicIn mem H) (haddr : 16 ∣ addr) : MagicIn (mem.fill addr 0 n) H := by
  intro q hdvd hq
  by_cases hin : addr ≤ q ∧ q < addr + n
  · have hbyte := low_byte hq
    rw [fill_apply, if_pos hin] at hbyte
    exact absurd hbyte (by decide)
  · refine hmem q hdvd (hq.symm.trans (word_congr fun i hi => ?_)).symm
    rw [fill_apply, if_neg (by omega)]

/-! ## Headers -/

section Fields

variable (hmem : MagicIn h.mem H) (ha : a + 48 ≤ 2 ^ 64) (hdvd : 16 ∣ a)
include hmem ha hdvd

theorem setSize : MagicIn (h.setSize a v).mem H := by
  rw [setSize_mem ha]
  exact hmem.store_high (by omega) (Nat.le_refl 8)

theorem setNext : MagicIn (h.setNext a v).mem H := by
  rw [setNext_mem ha]
  exact hmem.store_high (by omega) (Nat.le_refl 8)

theorem setFree (free : Bool) : MagicIn (h.setFree a (if free then 1 else 0)).mem H := by
  rw [setFree_mem ha]
  refine (hmem.store_low (by omega) (by decide) (by decide) ?_).mono fun q hq => hq.1
  cases free with
  | false => decide
  | true => decide

theorem setPrev (hv : 16 ∣ v) : MagicIn (h.setPrev a v).mem H := by
  rw [setPrev_mem ha]
  exact (hmem.store_low (by omega) (by decide) (by decide) (by omega)).mono fun q hq => hq.1

theorem withHeader {size prev next : ℕ} (hprev : 16 ∣ prev) :
    MagicIn (withHeader h a size prev next).mem fun q => H q ∨ q = a := by
  have hmagic : MagicIn (h.setMagic a Kmem.magic).mem fun q => H q ∨ q = a := by
    rw [setMagic_mem ha]
    exact hmem.store_magic hdvd
  exact (((hmagic.setSize ha hdvd).setFree ha hdvd true).setPrev ha hdvd hprev).setNext ha hdvd

theorem clearHeader : MagicIn (clearHeader h a).mem fun q => H q ∧ q ≠ a := by
  have hmagic : MagicIn (h.setMagic a 0).mem fun q => H q ∧ q ≠ a := by
    rw [setMagic_mem ha]
    exact hmem.store_low hdvd (by decide) (by decide) (by decide)
  exact ((hmagic.setSize ha hdvd).setPrev ha hdvd (Nat.dvd_zero 16)).setNext ha hdvd

end Fields

theorem relink (hmem : MagicIn h.mem H) (ha : ys ≠ [] → a + 48 ≤ 2 ^ 64) (hdvd : 16 ∣ a)
    (hv : 16 ∣ v) :
    MagicIn (relink h (linkTo a ys 0) v).mem H := by
  unfold Kmem.relink
  cases ys with
  | nil => exact hmem
  | cons c ys =>
      split
      · exact hmem.setPrev (ha (List.cons_ne_nil c ys)) hdvd hv
      · exact hmem

end MagicIn

/-! ## Operations -/

namespace Rep

theorem magicIn_split (hrep : Rep h (xs ++ b :: ys)) (hwanted : wanted + 80 < b.size)
    (hdvd : 16 ∣ wanted) (hmem : MagicIn h.mem H) :
    MagicIn (Kmem.split h (h.heapBase + extent xs) wanted
      (h.heapBase + extent xs + 48 + wanted)).mem fun q => H q ∨
      q = h.heapBase + extent xs + 48 + wanted := by
  rw [hrep.split_eq hwanted]
  have hbounds := hrep.bounds
  have hend := hrep.end_lt
  have hp := hrep.dvd_addr
  have hsize := hrep.size_ok.2
  have hfits : ys ≠ [] → _ := hrep.next_fits
  generalize h.heapBase + extent xs = p at hbounds hp hfits ⊢
  have hpfits : p + 48 ≤ 2 ^ 64 := by omega
  have hnew : 16 ∣ p + 48 + wanted := by omega
  refine MagicIn.setSize (MagicIn.setNext (MagicIn.relink ?_ hfits (by omega) hnew) hpfits hp)
    hpfits hp
  exact hmem.withHeader (by omega) hnew hp

theorem magicIn_merge (hrep : Rep h (xs ++ b :: c :: ys)) (hmem : MagicIn h.mem H) :
    MagicIn (Kmem.merge h (h.heapBase + extent xs) (h.heapBase + extent xs + 48 + b.size)).mem
      fun q => H q ∧ q ≠ h.heapBase + extent xs + 48 + b.size := by
  rw [hrep.merge_eq]
  have hbounds := hrep.bounds
  have hend := hrep.end_lt
  have hp := hrep.dvd_addr
  obtain ⟨hb, hc, -⟩ := (sizesOk_cons.mp (sizesOk_append.mp hrep.sizes).2).imp_right sizesOk_cons.mp
  have hbdvd := hb.2
  have hcdvd := hc.2
  rw [extent] at hbounds
  have hfits : ys ≠ [] → _ := hrep.second_fits
  generalize h.heapBase + extent xs = p at hbounds hp hfits ⊢
  have hpfits : p + 48 ≤ 2 ^ 64 := by omega
  refine MagicIn.clearHeader (MagicIn.relink ?_ hfits (by omega) hp) (by omega) (by omega)
  exact (hmem.setSize hpfits hp).setNext hpfits hp

end Rep

end Mcsos.Kmem
