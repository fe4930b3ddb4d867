import Mcsos.Pmm.Protection
import Mathlib.Order.Bounds.Defs

/-!
# The hint of the frame allocator

`pmm_alloc_frame` starts to search at `next_hint` and goes back to the first frame if it finds
nothing behind it.  An allocation moves the hint behind the frame it took, freeing a frame lowers
it, and reservations leave it alone.  All of this keeps the frames below the hint in use, so that
the allocator is first fit: it takes the free frame with the smallest number, and the second of its
two loops never runs.
-/

namespace Mcsos.Pmm

open Bytes

variable {n : ℕ} {boot pmm : PmmState n} {regions : List BootMemRegion} {storage : Bytes n}
  {maxPhysBytes : UInt64} {f g : ℕ}

/-- The first loop of `pmm_alloc_frame`. -/
def scanFromHint (pmm : PmmState n) : Option ℕ :=
  (List.range' pmm.nextHint (pmm.frameCount - pmm.nextHint)).find? (!pmm.bitmap.testBit ·)

/-- First fit, without a hint. -/
def firstFit (pmm : PmmState n) : Option ℕ × PmmState n :=
  match (List.range pmm.frameCount).find? (!pmm.bitmap.testBit ·) with
  | some frame => takeFrame pmm frame
  | none => (none, pmm)

/-- The allocator is first fit: all frames below the hint are in use, the free frame with the
smallest number is taken, and if the search starts at all then its first loop finds a frame. -/
structure IsFirstFit (pmm : PmmState n) : Prop where
  below : ∀ f < pmm.nextHint, pmm.bitmap.testBit f = true
  alloc : pmmAllocFrame pmm = firstFit pmm
  smallest : ∀ f, (pmmAllocFrame pmm).1 = some (f * pageSize) ↔ IsLeast {g | IsFree pmm g} f
  invalid : (pmmAllocFrame pmm).1 = none ↔ ∀ f, ¬ IsFree pmm f
  oneScan : pmm.freeFrames ≠ 0 → scanFromHint pmm ≠ none

/-- What holds between two calls. -/
structure HintOk (pmm : PmmState n) : Prop where
  ok : PmmOk pmm
  initialized : pmm.initialized = true
  below : ∀ f, IsFree pmm f → pmm.nextHint ≤ f

/-! ## The search -/

/-- Below the hint, all bits are set. -/
theorem HintOk.testBit (h : HintOk pmm) (hf : f < pmm.nextHint) : pmm.bitmap.testBit f = true := by
  rw [← Bool.not_eq_false]
  intro hclear
  exact absurd (h.below f ⟨hf.trans_le h.ok.hint, hclear⟩) (Nat.not_le.mpr hf)

/-- The loop from the hint finds what a search of the whole bitmap finds. -/
theorem HintOk.scanFromHint_eq (h : HintOk pmm) :
    scanFromHint pmm = (List.range pmm.frameCount).find? (!pmm.bitmap.testBit ·) := by
  have hsplit : List.range pmm.frameCount =
      List.range pmm.nextHint ++ List.range' pmm.nextHint (pmm.frameCount - pmm.nextHint) := by
    have happend : List.range' 0 pmm.nextHint ++
        List.range' (0 + pmm.nextHint) (pmm.frameCount - pmm.nextHint) = _ := List.range'_append_1
    rw [Nat.zero_add, Nat.add_sub_cancel' h.ok.hint] at happend
    rw [List.range_eq_range', List.range_eq_range', happend]
  have hnone : (List.range pmm.nextHint).find? (!pmm.bitmap.testBit ·) = none := by
    rw [List.find?_eq_none]
    intro f hf
    simp [h.testBit (List.mem_range.mp hf)]
  rw [hsplit, List.find?_append, hnone, Option.none_or]
  rfl

/-- What the search finds is the least free frame. -/
theorem find_eq_some_iff :
    (List.range pmm.frameCount).find? (!pmm.bitmap.testBit ·) = some f ↔
      IsLeast {g | IsFree pmm g} f := by
  rw [List.find?_range_eq_some]
  simp only [Bool.not_eq_true', List.mem_range, Bool.not_not]
  constructor
  · rintro ⟨hclear, hf, hbefore⟩
    refine ⟨⟨hf, hclear⟩, fun g hg => ?_⟩
    by_contra hlt
    have hset := hbefore g (Nat.not_le.mp hlt)
    rw [hg.2] at hset
    cases hset
  · rintro ⟨hfree, hleast⟩
    refine ⟨hfree.2, hfree.1, fun g hg => ?_⟩
    rw [← Bool.not_eq_false]
    intro hclear
    exact absurd (hleast ⟨hg.trans hfree.1, hclear⟩) (Nat.not_le.mpr hg)

theorem find_eq_none_iff :
    (List.range pmm.frameCount).find? (!pmm.bitmap.testBit ·) = none ↔ ∀ f, ¬ IsFree pmm f := by
  rw [List.find?_eq_none]
  constructor
  · rintro hset f ⟨hf, hclear⟩
    exact hset f (List.mem_range.mpr hf) (by simp [hclear])
  · intro hnone f hf hclear
    exact hnone f ⟨List.mem_range.mp hf, by simpa using hclear⟩

/-- The counter is zero if and only if no frame is free. -/
theorem PmmOk.freeFrames_eq_zero_iff (h : PmmOk pmm) :
    pmm.freeFrames = 0 ↔ ∀ f, ¬ IsFree pmm f := by
  rw [h.free, Finset.card_eq_zero, Finset.eq_empty_iff_forall_notMem]
  simp only [mem_freeSet]

theorem HintOk.scanFromHint_ne_none (h : HintOk pmm) (hfree : pmm.freeFrames ≠ 0) :
    scanFromHint pmm ≠ none := by
  rw [h.scanFromHint_eq, ne_eq, find_eq_none_iff, ← h.ok.freeFrames_eq_zero_iff]
  exact hfree

theorem HintOk.alloc_eq (h : HintOk pmm) : pmmAllocFrame pmm = firstFit pmm := by
  unfold pmmAllocFrame firstFit
  rw [h.initialized, Bool.not_true, Bool.false_or]
  by_cases hfree : pmm.freeFrames = 0
  · rw [if_pos (beq_iff_eq.mpr hfree),
      find_eq_none_iff.mpr (h.ok.freeFrames_eq_zero_iff.mp hfree)]
  · rw [if_neg (by simpa using hfree), ← h.scanFromHint_eq]
    cases hscan : scanFromHint pmm with
    | none => exact absurd hscan (h.scanFromHint_ne_none hfree)
    | some frame =>
      rw [scanFromHint] at hscan
      rw [hscan]

theorem HintOk.isFirstFit (h : HintOk pmm) : IsFirstFit pmm where
  below := fun f hf => h.testBit hf
  alloc := h.alloc_eq
  smallest := by
    intro f
    rw [h.alloc_eq, ← find_eq_some_iff, firstFit]
    cases (List.range pmm.frameCount).find? (!pmm.bitmap.testBit ·) with
    | none => simp
    | some g => simp [takeFrame, pageSize]
  invalid := by
    rw [h.alloc_eq, ← find_eq_none_iff, firstFit]
    cases (List.range pmm.frameCount).find? (!pmm.bitmap.testBit ·) with
    | none => simp
    | some g => simp [takeFrame]
  oneScan := h.scanFromHint_ne_none

/-! ## What the operations do to the hint -/

theorem nextHint_markFrameFree_le (pmm : PmmState n) (g : ℕ) :
    (markFrameFree pmm g).nextHint ≤ pmm.nextHint := by
  unfold markFrameFree
  by_cases hcount : pmm.frameCount ≤ g
  · rw [if_pos hcount]
  · rw [if_neg hcount]
    by_cases hset : pmm.bitmap.testBit g = true
    · rw [if_pos hset]
      show (if g < pmm.nextHint then g else pmm.nextHint) ≤ pmm.nextHint
      split_ifs <;> omega
    · rw [if_neg hset]

/-- Freeing a frame in use moves the hint to it, or leaves it below. -/
theorem nextHint_markFrameFree_le_frame (hg : g < pmm.frameCount) (hused : ¬ IsFree pmm g) :
    (markFrameFree pmm g).nextHint ≤ g := by
  have hset : pmm.bitmap.testBit g = true := by
    rw [← Bool.not_eq_false]
    exact fun hclear => hused ⟨hg, hclear⟩
  unfold markFrameFree
  rw [if_neg (Nat.not_le.mpr hg), if_pos hset]
  show (if g < pmm.nextHint then g else pmm.nextHint) ≤ g
  split_ifs <;> omega

theorem nextHint_reserveFrame (h : PmmOk pmm) (hg : g < pmm.frameCount) :
    (reserveFrame pmm g).nextHint = pmm.nextHint := by
  rcases reserveFrame_cases h hg with ⟨-, heq⟩ | ⟨-, heq⟩
  · rw [heq]
  · rw [heq]

theorem nextHint_foldl_reserveFrame (h : PmmOk pmm) {l : List ℕ}
    (hl : ∀ f ∈ l, f < pmm.frameCount) : (l.foldl reserveFrame pmm).nextHint = pmm.nextHint := by
  induction l generalizing pmm with
  | nil => rfl
  | cons g l ih =>
    have hg := hl g List.mem_cons_self
    have hhead := reserveFrame_leads h hg
    have hrest : ∀ f ∈ l, f < (reserveFrame pmm g).frameCount := by
      intro f hf
      rw [hhead.frameCount]
      exact hl f (List.mem_cons_of_mem g hf)
    calc ((g :: l).foldl reserveFrame pmm).nextHint
        = (reserveFrame pmm g).nextHint := ih hhead.ok hrest
      _ = pmm.nextHint := nextHint_reserveFrame h hg

theorem nextHint_foldl_markFrameFree_le (l : List ℕ) (pmm : PmmState n) :
    (l.foldl markFrameFree pmm).nextHint ≤ pmm.nextHint := by
  induction l generalizing pmm with
  | nil => exact Nat.le_refl _
  | cons g l ih =>
    calc ((g :: l).foldl markFrameFree pmm).nextHint
        ≤ (markFrameFree pmm g).nextHint := ih _
      _ ≤ pmm.nextHint := nextHint_markFrameFree_le pmm g

theorem nextHint_markRangeUsed (h : PmmOk pmm) {base : ℕ} (hbase : base < 2 ^ 64) (length : ℕ) :
    (markRangeUsed pmm base length).nextHint = pmm.nextHint := by
  obtain ⟨l, heq, hl⟩ := markRangeUsed_eq h hbase length
  rw [heq]
  exact nextHint_foldl_reserveFrame h fun f hf => ((hl f).mp hf).1

theorem nextHint_markRangeFree_le (h : PmmOk pmm) {base : ℕ} (hbase : base < 2 ^ 64)
    (length : ℕ) : (markRangeFree pmm base length).nextHint ≤ pmm.nextHint := by
  obtain ⟨ignored, l, heq, -⟩ := markRangeFree_eq h hbase length
  rw [heq]
  exact nextHint_foldl_markFrameFree_le l _

theorem nextHint_freeUsable_le (h : PmmOk pmm) (regions : List BootMemRegion) :
    (freeUsable regions pmm).nextHint ≤ pmm.nextHint := by
  unfold freeUsable
  induction regions generalizing pmm with
  | nil => exact Nat.le_refl _
  | cons r regions ih =>
    rw [List.foldl_cons]
    split_ifs
    · have hhead : Leads pmm (markRangeFree pmm r.base.toNat r.length.toNat) _ :=
        markRangeFree_leads h r.base.toNat_lt
      exact (ih hhead.ok).trans (nextHint_markRangeFree_le h r.base.toNat_lt _)
    · exact ih h

theorem nextHint_reserveOthers (h : PmmOk pmm) (regions : List BootMemRegion) :
    (reserveOthers regions pmm).nextHint = pmm.nextHint := by
  unfold reserveOthers
  induction regions generalizing pmm with
  | nil => rfl
  | cons r regions ih =>
    rw [List.foldl_cons]
    split_ifs
    · have hhead : Leads pmm (markRangeUsed pmm r.base.toNat r.length.toNat) _ :=
        markRangeUsed_leads h r.base.toNat_lt
      exact (ih hhead.ok).trans (nextHint_markRangeUsed h r.base.toNat_lt _)
    · exact ih h

/-- The hint is at the first frame after initialisation. -/
theorem nextHint_pmmInitFromMap (h : pmmInitFromMap regions storage maxPhysBytes = some pmm) :
    pmm.nextHint = 0 := by
  obtain ⟨hstart, rfl⟩ := pmmInitFromMap_eq h
  have husable := freeUsable_leads regions hstart
  have hfirst : Leads _ (markRangeUsed _ 0 pageSize) _ := markRangeUsed_leads husable.ok (by decide)
  show (reserveOthers regions _).nextHint = 0
  rw [nextHint_reserveOthers hfirst.ok, nextHint_markRangeUsed husable.ok (by decide)]
  exact Nat.le_zero.mp (nextHint_freeUsable_le hstart regions)

/-! ## Runs -/

theorem HintOk.init (h : pmmInitFromMap regions storage maxPhysBytes = some pmm) : HintOk pmm where
  ok := (pmmInitFromMap_booted h).ok
  initialized := (pmmInitFromMap_booted h).initialized
  below := fun f _ => by
    rw [nextHint_pmmInitFromMap h]
    exact Nat.zero_le f

/-- The frame that is taken is the least free one, so no free frame is left below the new hint. -/
theorem HintOk.alloc (h : HintOk pmm) : HintOk (Op.alloc.step pmm) := by
  simp only [Op.step, h.alloc_eq, firstFit]
  cases hfind : (List.range pmm.frameCount).find? (!pmm.bitmap.testBit ·) with
  | none => exact h
  | some f =>
    obtain ⟨hfree, hleast⟩ := find_eq_some_iff.mp hfind
    have hleads := takeFrame_leads h.ok hfree
    refine ⟨hleads.ok, hleads.initialized.trans h.initialized, fun g hg => ?_⟩
    obtain ⟨-, hold, hne⟩ := (hleads.free g).mp hg
    have hle : f ≤ g := hleast hold
    show f + 1 ≤ g
    omega

theorem HintOk.reserve (h : HintOk pmm) (base length : UInt64) :
    HintOk ((Op.reserve base length).step pmm) := by
  have hhint : ((Op.reserve base length).step pmm).nextHint = pmm.nextHint := by
    simp only [Op.step, pmmReserveRange]
    split_ifs
    · rfl
    · exact nextHint_markRangeUsed h.ok base.toNat_lt _
  obtain ⟨F, hleads, hsub⟩ := pmmReserveRange_leads h.ok base length
  refine ⟨hleads.ok, hleads.initialized.trans h.initialized, fun f hf => ?_⟩
  rw [hhint]
  exact h.below f (hsub f ((hleads.free f).mp hf).2)

theorem HintOk.free (h : HintOk pmm) (physAddr : UInt64) :
    HintOk ((Op.free physAddr).step pmm) := by
  simp only [Op.step]
  rcases pmmFreeFrame_cases h.ok physAddr.toNat with heq | ⟨g, -, -, hg, hused, heq⟩
  · rwa [heq]
  · have hleads := markFrameFree_leads h.ok g
    rw [heq]
    refine ⟨hleads.ok, hleads.initialized.trans h.initialized, fun f hf => ?_⟩
    rcases ((hleads.free f).mp hf).2 with hold | rfl
    · exact (nextHint_markFrameFree_le pmm g).trans (h.below f hold)
    · exact nextHint_markFrameFree_le_frame hg hused

theorem HintOk.step (h : HintOk pmm) (o : Op) : HintOk (o.step pmm) := by
  cases o with
  | alloc => exact h.alloc
  | reserve base length => exact h.reserve base length
  | free physAddr => exact h.free physAddr

/-- **The allocator is first fit.**  In every run of calls with arbitrary arguments, all frames
below the hint are in use in every state.  An allocation takes the free frame with the smallest
number and fails just when no frame is free, and the search never goes back to the first frame. -/
theorem alloc_first_fit (regions : List BootMemRegion) (storage : Bytes n) (maxPhysBytes : UInt64)
    (boot : PmmState n) (hinit : pmmInitFromMap regions storage maxPhysBytes = some boot)
    (ops : List Op) : AllStates Op.step IsFirstFit ops boot := by
  refine AllStates.mono (I := HintOk) (fun _ h => h.isFirstFit) ?_
  exact AllStates.of_step (fun o _ h => h.step o) (HintOk.init hinit)

/-- The second and the third frame are taken, the second one is freed, and is the next to be
taken. -/
theorem alloc_first_fit_again :
    ∃ boot : PmmState 1, pmmInitFromMap [⟨0, 0x4000, bootMemUsable⟩] Bytes.zero 0x4000 = some boot ∧
      AllStates Op.step IsFirstFit [.alloc, .alloc, .free 0x1000, .alloc] boot ∧
      (pmmAllocFrame ([Op.alloc, .alloc, .free 0x1000].foldl (fun s o => o.step s) boot)).1 =
        some 0x1000 := by
  obtain ⟨boot, hinit, halloc⟩ : ∃ boot : PmmState 1,
      pmmInitFromMap [⟨0, 0x4000, bootMemUsable⟩] Bytes.zero 0x4000 = some boot ∧
      (pmmAllocFrame ([Op.alloc, .alloc, .free 0x1000].foldl (fun s o => o.step s) boot)).1 =
        some 0x1000 :=
    ⟨_, rfl, by decide⟩
  exact ⟨boot, hinit, alloc_first_fit _ _ _ boot hinit _, halloc⟩

end Mcsos.Pmm
