import Mcsos.Kmem.Chain

/-!
# Splitting and merging

What the stores of `kmem_split_if_useful` and of `kmem_coalesce_forward` do to the list of blocks.
-/

namespace Mcsos.Kmem

open Memory

variable {h : Heap} {b c : Blk} {xs ys : List Blk} {wanted : ℕ}

/-! ## Rounding -/

theorem align_and_mask {v : ℕ} (hv : v < 2 ^ 64) : v &&& (2 ^ 64 - 1 - (2 ^ 4 - 1)) = v / 16 * 16 :=
  and_mask_eq hv (by decide)

/-- `kmem_align_up_size` to multiples of 16, without an overflow. -/
theorem alignUpSize_eq {v : ℕ} (hv : v ≤ 2 ^ 64 - 16) :
    alignUpSize v align = (v + 15) / 16 * 16 := by
  have hsmall : ¬ 2 ^ 64 - 1 - (align - 1) < v := by
    show ¬ 2 ^ 64 - 1 - 15 < v
    omega
  have hlt : v + 15 < 2 ^ 64 := by omega
  rw [alignUpSize, if_neg (by decide), if_neg (by decide), if_neg hsmall]
  exact align_and_mask hlt

theorem alignUpSize_eq_zero {v : ℕ} (hv : 2 ^ 64 - 16 < v) : alignUpSize v align = 0 := by
  have hlarge : 2 ^ 64 - 1 - (align - 1) < v := by
    show 2 ^ 64 - 1 - 15 < v
    omega
  rw [alignUpSize, if_neg (by decide), if_neg (by decide), if_pos hlarge]

theorem le_of_alignUpSize_ne_zero {v : ℕ} (hne : alignUpSize v align ≠ 0) : v ≤ 2 ^ 64 - 16 :=
  Nat.not_lt.mp fun hlt => hne (alignUpSize_eq_zero hlt)

theorem le_alignUpSize {v : ℕ} (hne : alignUpSize v align ≠ 0) : v ≤ alignUpSize v align := by
  rw [alignUpSize_eq (le_of_alignUpSize_ne_zero hne)]
  omega

theorem dvd_alignUpSize (v : ℕ) : 16 ∣ alignUpSize v align := by
  by_cases hv : v ≤ 2 ^ 64 - 16
  · rw [alignUpSize_eq hv]
    exact Nat.dvd_mul_left 16 _
  · rw [alignUpSize_eq_zero (Nat.not_le.mp hv)]
    exact Nat.dvd_zero 16

/-- `kmem_align_up_ptr` to multiples of 16, without an overflow. -/
theorem alignUpPtr_eq {v : ℕ} (hv : v ≤ 2 ^ 64 - 16) : alignUpPtr v align = (v + 15) / 16 * 16 := by
  have hsmall : ¬ 2 ^ 64 - 1 - sub64 align 1 < v := by
    show ¬ 2 ^ 64 - 1 - 15 < v
    omega
  have hlt : v + 15 < 2 ^ 64 := by omega
  rw [alignUpPtr, if_neg (by decide), if_neg hsmall]
  exact align_and_mask hlt

theorem alignUpPtr_eq_zero {v : ℕ} (hv : 2 ^ 64 - 16 < v) : alignUpPtr v align = 0 := by
  have hlarge : 2 ^ 64 - 1 - sub64 align 1 < v := by
    show 2 ^ 64 - 1 - 15 < v
    omega
  rw [alignUpPtr, if_neg (by decide), if_pos hlarge]

theorem alignUpPtr_of_dvd {v : ℕ} (hv : v < 2 ^ 64) (hdvd : 16 ∣ v) : alignUpPtr v align = v := by
  rw [alignUpPtr_eq (by omega)]
  omega

/-! ## Splitting -/

/-- The heap after the header of a new block was stored. -/
def withHeader (h : Heap) (block size prev next : ℕ) : Heap :=
  ((((h.setMagic block magic).setSize block size).setFree block 1).setPrev block prev).setNext block
    next

theorem sameOn_withHeader {block lo hi : ℕ} (hblock : block + 48 ≤ 2 ^ 64)
    (hout : hi ≤ block ∨ block + 48 ≤ lo) (h : Heap) (size prev next : ℕ) :
    SameOn lo hi h.mem (withHeader h block size prev next).mem :=
  ((((sameOn_setMagic hblock hout _ _).trans (sameOn_setSize hblock hout _ _)).trans
    (sameOn_setFree hblock hout _ _)).trans (sameOn_setPrev hblock hout _ _)).trans
      (sameOn_setNext hblock hout _ _)

/-- The heap after the link back from the block `next` was set, if there is one. -/
def relink (h : Heap) (next prev : ℕ) : Heap := if next ≠ 0 then h.setPrev next prev else h

/-- The block after the end of `ys`, if there is one, is not in a range that ends before it. -/
theorem sameOn_relink {a lo hi prev : ℕ} (ha : ys ≠ [] → a + 48 ≤ 2 ^ 64) (hhi : hi ≤ a)
    (h : Heap) :
    SameOn lo hi h.mem (relink h (linkTo a ys 0) prev).mem := by
  unfold relink
  cases ys with
  | nil => exact SameOn.refl lo hi h.mem
  | cons c ys =>
      split
      · exact sameOn_setPrev (ha (List.cons_ne_nil c ys)) (Or.inl hhi) h prev
      · exact SameOn.refl lo hi h.mem

theorem seg_relink {a prev prev' : ℕ} (hseg : Seg h.mem prev a ys 0)
    (ha : ys ≠ [] → a + 48 ≤ 2 ^ 64) (hpos : 0 < a) (hprev' : prev' < 2 ^ 64) :
    Seg (relink h (linkTo a ys 0) prev').mem prev' a ys 0 := by
  cases ys with
  | nil => trivial
  | cons c ys =>
      have hne : linkTo a (c :: ys) 0 ≠ 0 := Nat.ne_of_gt hpos
      rw [relink, if_pos hne]
      exact hseg.setPrev (ha (List.cons_ne_nil c ys)) hprev'

theorem Rep.next_fits (hrep : Rep h (xs ++ b :: ys)) (hys : ys ≠ []) :
    h.heapBase + extent xs + 48 + b.size + 48 ≤ 2 ^ 64 := by
  have hbounds := hrep.bounds
  have hend := hrep.end_lt
  have hnext := header_le_extent hys
  omega

theorem Rep.split_eq (hrep : Rep h (xs ++ b :: ys)) (hwanted : wanted + 80 < b.size) :
    split h (h.heapBase + extent xs) wanted (h.heapBase + extent xs + 48 + wanted) =
      ((relink (withHeader h (h.heapBase + extent xs + 48 + wanted) (b.size - wanted - 48)
          (h.heapBase + extent xs) (linkTo (h.heapBase + extent xs + 48 + b.size) ys 0))
        (linkTo (h.heapBase + extent xs + 48 + b.size) ys 0)
        (h.heapBase + extent xs + 48 + wanted)).setNext (h.heapBase + extent xs)
          (h.heapBase + extent xs + 48 + wanted)).setSize (h.heapBase + extent xs) wanted := by
  have hbounds := hrep.bounds
  have hend := hrep.end_lt
  have hheader := hrep.header
  generalize hp : h.heapBase + extent xs = p at hbounds hheader ⊢
  have hpfits : p + 48 ≤ 2 ^ 64 := by omega
  have hrfits : p + 48 + wanted + 48 ≤ 2 ^ 64 := by omega
  have hout : p + 48 ≤ p + 48 + wanted ∨ p + 48 + wanted + 48 ≤ p := Or.inl (by omega)
  have hpayload : payload p = p + 48 := add64_eq (by unfold headerSize; omega)
  have hconsumed : sub64 (p + 48 + wanted) (payload p) = wanted := by
    rw [hpayload, sub64_eq (by omega) (by omega)]
    omega
  have hsize : (h.setMagic (p + 48 + wanted) magic).sizeOf p = b.size :=
    (hheader.congr (sameOn_setMagic hrfits hout h magic)).sizeOf_eq hpfits
  have hrest : sub64 (sub64 b.size wanted) headerSize = b.size - wanted - 48 := by
    have hfirst : sub64 b.size wanted = b.size - wanted := sub64_eq (by omega) (by omega)
    rw [hfirst]
    exact sub64_eq (by unfold headerSize; omega) (by omega)
  have hnext : ∀ size next, (withHeader h (p + 48 + wanted) size p next).nextOf p =
      linkTo (p + 48 + b.size) ys 0 := fun size next =>
    (hheader.congr (sameOn_withHeader hrfits hout h size p next)).nextOf_eq hpfits
  have hnext' : ((((h.setMagic (p + 48 + wanted) magic).setSize (p + 48 + wanted)
      (b.size - wanted - 48)).setFree (p + 48 + wanted) 1).setPrev (p + 48 + wanted) p).nextOf p =
      linkTo (p + 48 + b.size) ys 0 := by
    refine (hheader.congr ?_).nextOf_eq hpfits
    exact (((sameOn_setMagic hrfits hout _ _).trans (sameOn_setSize hrfits hout _ _)).trans
      (sameOn_setFree hrfits hout _ _)).trans (sameOn_setPrev hrfits hout _ _)
  have hwith := hnext (b.size - wanted - 48) (linkTo (p + 48 + b.size) ys 0)
  simp only [withHeader] at hwith
  simp only [split, hconsumed, hsize, hrest, hnext', hwith]
  rfl

/-- Splitting cuts a free block off the end of a block. -/
theorem Rep.split (hrep : Rep h (xs ++ b :: ys)) (hwanted : wanted + 80 < b.size)
    (hpos : 0 < wanted) (hdvd : 16 ∣ wanted) :
    Rep (split h (h.heapBase + extent xs) wanted (h.heapBase + extent xs + 48 + wanted))
      (xs ++ ⟨wanted, b.free⟩ :: ⟨b.size - wanted - 48, true⟩ :: ys) := by
  have hglobals :=
    sameGlobals_split h (h.heapBase + extent xs) wanted (h.heapBase + extent xs + 48 + wanted)
  rw [hrep.split_eq hwanted] at hglobals ⊢
  have hbounds := hrep.bounds
  have hend := hrep.end_lt
  have hbase := hrep.base_pos
  have hheader := hrep.header
  have hrest := hrep.rest
  have hnextfits : ys ≠ [] → _ := hrep.next_fits
  have hsizeok := hrep.size_ok
  generalize hp : h.heapBase + extent xs = p at hglobals hbounds hheader hrest hnextfits ⊢
  generalize hr : p + 48 + wanted = r at hglobals ⊢
  generalize hq : p + 48 + b.size = q at hglobals hbounds hheader hrest hnextfits ⊢
  have hpfits : p + 48 ≤ 2 ^ 64 := by omega
  have hrfits : r + 48 ≤ 2 ^ 64 := by omega
  have hqlt : q < 2 ^ 64 := by omega
  have hlink : linkTo q ys 0 < 2 ^ 64 := linkTo_lt hqlt ys
  -- the states after the header of the new block, and after the link from the next block
  generalize hh₁ : withHeader h r (b.size - wanted - 48) p (linkTo q ys 0) = h₁ at hglobals ⊢
  generalize hh₂ : relink h₁ (linkTo q ys 0) r = h₂ at hglobals ⊢
  have hsame₁ : ∀ {lo hi : ℕ}, hi ≤ r ∨ r + 48 ≤ lo → SameOn lo hi h.mem h₁.mem := fun hout =>
    hh₁ ▸ sameOn_withHeader hrfits hout h _ _ _
  have hsame₂ : ∀ {lo hi : ℕ}, hi ≤ q → SameOn lo hi h₁.mem h₂.mem := fun hhi =>
    hh₂ ▸ sameOn_relink hnextfits hhi h₁
  have hsame₃ : ∀ {lo hi : ℕ}, hi ≤ p ∨ p + 48 ≤ lo →
      SameOn lo hi h₂.mem ((h₂.setNext p r).setSize p wanted).mem := fun hout =>
    (sameOn_setNext hpfits hout h₂ r).trans (sameOn_setSize hpfits hout _ wanted)
  refine hrep.replace hglobals (List.cons_ne_nil _ _) (List.cons_ne_nil _ _) ?_ ?_ ?_ ?_
  · simp only [extent]
    omega
  · refine sizesOk_cons.mpr ⟨⟨hpos, hdvd⟩, sizesOk_cons.mpr ⟨⟨?_, ?_⟩, ?_⟩⟩
    · show 0 < b.size - wanted - 48
      omega
    · show 16 ∣ b.size - wanted - 48
      omega
    · exact (sizesOk_cons.mp (sizesOk_append.mp hrep.sizes).2).2
  · exact ((hsame₁ (Or.inl (by omega))).trans (hsame₂ (by omega))).trans
      (hsame₃ (Or.inl (by omega)))
  · rw [hp]
    refine ⟨?_, ?_, ?_⟩
    · -- the block itself
      have hkept := (hheader.congr (hsame₁ (Or.inl (by omega)))).congr (hsame₂ (by omega))
      have hset :=
        (hkept.setNext hpfits (by omega : r < 2 ^ 64)).setSize hpfits (by omega : wanted < 2 ^ 64)
      rw [← hr] at hset ⊢
      exact hset
    · -- the new block
      have hnew : Header h₁.mem r ⟨b.size - wanted - 48, true⟩ p (linkTo q ys 0) :=
        hh₁ ▸ header_new hrfits h (by omega) (by omega) hlink
      have hkept := (hnew.congr (hsame₂ (by omega))).congr (hsame₃ (Or.inr (by omega)))
      have hq' : p + 48 + wanted + 48 + (b.size - wanted - 48) = q := by omega
      show Header _ (p + 48 + wanted) _ p
        (linkTo (p + 48 + wanted + 48 + (b.size - wanted - 48)) ys 0)
      rw [hq', hr]
      exact hkept
    · -- the blocks after it
      have hkept := hrest.congr (hsame₁ (Or.inr (by omega)))
      have hback : Seg h₂.mem r q ys 0 := hh₂ ▸ seg_relink hkept hnextfits (by omega) (by omega)
      have hq' : p + 48 + wanted + 48 + (b.size - wanted - 48) = q := by omega
      show Seg _ (p + 48 + wanted) (p + 48 + wanted + 48 + (b.size - wanted - 48)) ys 0
      rw [hq', hr]
      exact hback.congr (hsame₃ (Or.inr (by omega)))

/-! ## Merging -/

/-- The heap after the header of a block was cleared. -/
def clearHeader (h : Heap) (block : ℕ) : Heap :=
  (((h.setMagic block 0).setSize block 0).setPrev block 0).setNext block 0

theorem sameOn_clearHeader {block lo hi : ℕ} (hblock : block + 48 ≤ 2 ^ 64)
    (hout : hi ≤ block ∨ block + 48 ≤ lo) (h : Heap) :
    SameOn lo hi h.mem (clearHeader h block).mem :=
  (((sameOn_setMagic hblock hout _ _).trans (sameOn_setSize hblock hout _ _)).trans
    (sameOn_setPrev hblock hout _ _)).trans (sameOn_setNext hblock hout _ _)

/-- The second of two blocks. -/
theorem Rep.second (hrep : Rep h (xs ++ b :: c :: ys)) :
    Header h.mem (h.heapBase + extent xs + 48 + b.size) c (h.heapBase + extent xs)
        (linkTo (h.heapBase + extent xs + 48 + b.size + 48 + c.size) ys 0) ∧
      Seg h.mem (h.heapBase + extent xs + 48 + b.size)
        (h.heapBase + extent xs + 48 + b.size + 48 + c.size) ys 0 := hrep.rest

theorem Rep.second_fits (hrep : Rep h (xs ++ b :: c :: ys)) (hys : ys ≠ []) :
    h.heapBase + extent xs + 48 + b.size + 48 + c.size + 48 ≤ 2 ^ 64 := by
  have hfits := hrep.passed.next_fits hys
  rw [extent_concat] at hfits
  omega

theorem Rep.merge_eq (hrep : Rep h (xs ++ b :: c :: ys)) :
    merge h (h.heapBase + extent xs) (h.heapBase + extent xs + 48 + b.size) =
      clearHeader (relink
        ((h.setSize (h.heapBase + extent xs) (b.size + (48 + c.size))).setNext
          (h.heapBase + extent xs)
          (linkTo (h.heapBase + extent xs + 48 + b.size + 48 + c.size) ys 0))
        (linkTo (h.heapBase + extent xs + 48 + b.size + 48 + c.size) ys 0) (h.heapBase + extent xs))
        (h.heapBase + extent xs + 48 + b.size) := by
  have hbounds := hrep.bounds
  have hend := hrep.end_lt
  have hheader := hrep.header
  obtain ⟨hsecond, -⟩ := hrep.second
  rw [extent] at hbounds
  generalize h.heapBase + extent xs = p at hbounds hheader hsecond ⊢
  generalize hr : p + 48 + b.size = r at hbounds hheader hsecond ⊢
  generalize linkTo (r + 48 + c.size) ys 0 = next at hsecond ⊢
  have hpfits : p + 48 ≤ 2 ^ 64 := by omega
  have hrfits : r + 48 ≤ 2 ^ 64 := by omega
  have hout : r + 48 ≤ p ∨ p + 48 ≤ r := Or.inr (by omega)
  have hsum : add64 (h.sizeOf p) (add64 headerSize (h.sizeOf r)) = b.size + (48 + c.size) := by
    have hinner : add64 headerSize c.size = 48 + c.size := add64_eq (by unfold headerSize; omega)
    rw [hheader.sizeOf_eq hpfits, hsecond.sizeOf_eq hrfits, hinner, add64_eq (by omega)]
  -- the stores to the first block leave the second one alone
  have hsized := hsecond.congr (sameOn_setSize hpfits hout h (b.size + (48 + c.size)))
  have hlinked := hsized.congr (sameOn_setNext hpfits hout _ next)
  have hnext₁ := hsized.nextOf_eq hrfits
  have hnext₂ := hlinked.nextOf_eq hrfits
  simp only [merge, hsum, hnext₁, hnext₂]
  rfl

/-- Merging joins a block with the one after it. -/
theorem Rep.merge (hrep : Rep h (xs ++ b :: c :: ys)) :
    Rep (merge h (h.heapBase + extent xs) (h.heapBase + extent xs + 48 + b.size))
      (xs ++ ⟨b.size + (48 + c.size), b.free⟩ :: ys) := by
  have hglobals :=
    sameGlobals_merge h (h.heapBase + extent xs) (h.heapBase + extent xs + 48 + b.size)
  rw [hrep.merge_eq] at hglobals ⊢
  have hbounds := hrep.bounds
  have hend := hrep.end_lt
  have hbase := hrep.base_pos
  have hheader := hrep.header
  obtain ⟨-, hrest⟩ := hrep.second
  have hnextfits : ys ≠ [] → _ := hrep.second_fits
  obtain ⟨hb, hc, hys⟩ :=
    (sizesOk_cons.mp (sizesOk_append.mp hrep.sizes).2).imp_right sizesOk_cons.mp
  rw [extent] at hbounds
  generalize hp : h.heapBase + extent xs = p at hglobals hbounds hheader hrest hnextfits ⊢
  generalize hr : p + 48 + b.size = r at hglobals hbounds hheader hrest hnextfits ⊢
  generalize hq : r + 48 + c.size = q at hglobals hbounds hrest hnextfits ⊢
  have hpfits : p + 48 ≤ 2 ^ 64 := by omega
  have hrfits : r + 48 ≤ 2 ^ 64 := by omega
  have hlink : linkTo q ys 0 < 2 ^ 64 := linkTo_lt (by omega) ys
  -- the states after the stores to the first block, and after the link from the next block
  generalize hh₁ :
    (h.setSize p (b.size + (48 + c.size))).setNext p (linkTo q ys 0) = h₁ at hglobals ⊢
  generalize hh₂ : relink h₁ (linkTo q ys 0) p = h₂ at hglobals ⊢
  have hsame₁ : ∀ {lo hi : ℕ}, hi ≤ p ∨ p + 48 ≤ lo → SameOn lo hi h.mem h₁.mem := fun hout =>
    hh₁ ▸ (sameOn_setSize hpfits hout h _).trans (sameOn_setNext hpfits hout _ _)
  have hsame₂ : ∀ {lo hi : ℕ}, hi ≤ q → SameOn lo hi h₁.mem h₂.mem := fun hhi =>
    hh₂ ▸ sameOn_relink hnextfits hhi h₁
  have hsame₃ : ∀ {lo hi : ℕ}, hi ≤ r ∨ r + 48 ≤ lo → SameOn lo hi h₂.mem (clearHeader h₂ r).mem :=
    fun hout => sameOn_clearHeader hrfits hout h₂
  refine hrep.replace hglobals (List.cons_ne_nil _ _) (List.cons_ne_nil _ _) ?_ ?_ ?_ ?_
  · simp only [extent]
    omega
  · refine sizesOk_cons.mpr ⟨⟨?_, ?_⟩, hys⟩
    · show 0 < b.size + (48 + c.size)
      omega
    · show 16 ∣ b.size + (48 + c.size)
      omega
  · exact ((hsame₁ (Or.inl (by omega))).trans (hsame₂ (by omega))).trans
      (hsame₃ (Or.inl (by omega)))
  · have hq' : p + 48 + (b.size + (48 + c.size)) = q := by omega
    rw [hp]
    refine ⟨?_, ?_⟩
    · -- the first block
      have hsized := hheader.setSize hpfits (by omega : b.size + (48 + c.size) < 2 ^ 64)
      have hlinked : Header h₁.mem p ⟨b.size + (48 + c.size), b.free⟩ (last 0 h.heapBase xs)
          (linkTo q ys 0) := hh₁ ▸ hsized.setNext hpfits hlink
      rw [hq']
      exact (hlinked.congr (hsame₂ (by omega))).congr (hsame₃ (Or.inl (by omega)))
    · -- the blocks after the second one
      have hkept := hrest.congr (hsame₁ (Or.inr (by omega)))
      have hback : Seg h₂.mem p q ys 0 := hh₂ ▸ seg_relink hkept hnextfits (by omega) (by omega)
      show Seg _ p (p + 48 + (b.size + (48 + c.size))) ys 0
      rw [hq']
      exact hback.congr (hsame₃ (Or.inr (by omega)))

end Mcsos.Kmem
