import Mcsos.Elf.PlanLoad

/-!
# Writable and executable segments

The loader looks at one program header at a time, and refuses one that is both writable and
executable.  It does not compare headers with each other: whether the planned segments overlap is up
to the image, and two headers that overlap give an address that is in a writable and in an
executable segment (`overlapping_segments_accepted`).
-/

namespace Mcsos.Elf

open Prog

/-- The addresses of a segment. -/
def SegmentPlan.Covers (seg : SegmentPlan) (addr : ℕ) : Prop :=
  seg.vaddr ≤ addr ∧ addr < seg.vaddr + seg.memsz

/-- A segment with `PF_W`. -/
def SegmentPlan.Writable (seg : SegmentPlan) : Prop := seg.flags &&& pfW ≠ 0

/-- A segment with `PF_X`. -/
def SegmentPlan.Executable (seg : SegmentPlan) : Prop := seg.flags &&& pfX ≠ 0

instance (seg : SegmentPlan) (addr : ℕ) : Decidable (seg.Covers addr) :=
  inferInstanceAs (Decidable (_ ∧ _))

instance (seg : SegmentPlan) : Decidable seg.Writable := inferInstanceAs (Decidable (_ ≠ _))

instance (seg : SegmentPlan) : Decidable seg.Executable := inferInstanceAs (Decidable (_ ≠ _))

/-- No address is in two segments of the plan. -/
def ImagePlan.Disjoint (plan : ImagePlan) : Prop :=
  ∀ i j addr, i < plan.segmentCount → j < plan.segmentCount → (plan.segments i).Covers addr →
    (plan.segments j).Covers addr → i = j

/-- No address is in a writable and in an executable segment of the plan. -/
def ImagePlan.WriteXorExecute (plan : ImagePlan) : Prop :=
  ∀ i j addr, i < plan.segmentCount → j < plan.segmentCount → (plan.segments i).Covers addr →
    (plan.segments j).Covers addr → ¬ ((plan.segments i).Writable ∧ (plan.segments j).Executable)

/-- The address ranges of the `PT_LOAD` headers of an image do not overlap. -/
def HeadersDisjoint (image : ℕ → UInt8) : Prop :=
  (loadHeaders image).Pairwise fun p q => ∀ addr, ¬ (p.plan.Covers addr ∧ q.plan.Covers addr)

variable {image : ℕ → UInt8} {imageSize : UInt64} {region : UserRegion} {plan : ImagePlan}

theorem segments_planOf {entry i : ℕ} {loads : List Phdr} (hi : i < loads.length) :
    (planOf entry loads).segments i = loads[i].plan := by
  simp [planOf, hi]

theorem disjoint_planOf (entry : ℕ) (loads : List Phdr) :
    (planOf entry loads).Disjoint ↔
      loads.Pairwise fun p q => ∀ addr, ¬ (p.plan.Covers addr ∧ q.plan.Covers addr) := by
  rw [List.pairwise_iff_getElem]
  constructor
  · rintro h i j hi hj hij addr ⟨hp, hq⟩
    rw [← segments_planOf hi] at hp
    rw [← segments_planOf hj] at hq
    exact hij.ne (h i j addr hi hj hp hq)
  · intro h i j addr hi hj hp hq
    rw [segments_planOf hi] at hp
    rw [segments_planOf hj] at hq
    rcases Nat.lt_trichotomy i j with hlt | heq | hgt
    · exact absurd ⟨hp, hq⟩ (h i j hi hj hlt addr)
    · exact heq
    · exact absurd ⟨hq, hp⟩ (h j i hj hi hgt addr)

/-- **Writable or executable.**  No segment of an accepted image is both writable and executable.
The planned segments are disjoint exactly if the `PT_LOAD` headers of the image are, and then no
address is both in a writable and in an executable segment. -/
theorem planned_segments_write_xor_execute (image : ℕ → UInt8) (imageSize : UInt64)
    (region : UserRegion) (plan : ImagePlan)
    (h : run (planLoad imageSize region) image = (.ok (.ok (), plan), image)) :
    (∀ i < plan.segmentCount, ¬ ((plan.segments i).Writable ∧ (plan.segments i).Executable)) ∧
    (plan.Disjoint ↔ HeadersDisjoint image) ∧
    (HeadersDisjoint image → plan.WriteXorExecute) := by
  rw [run_planLoad] at h
  obtain ⟨hstatus, hplan⟩ : (planResult image imageSize region).1 = .ok () ∧
      (planResult image imageSize region).2 = plan := by
    simpa [Prod.ext_iff] using h
  have hloadable := (planResult_ok_iff image imageSize region).mp hstatus
  have hloads : planOf (ehdrOf image).entry (loadHeaders image) = plan :=
    (planResult_plan hstatus).symm.trans hplan
  subst hloads
  have hsingle : ∀ i < (loadHeaders image).length,
      ¬ (((planOf (ehdrOf image).entry (loadHeaders image)).segments i).Writable ∧
        ((planOf (ehdrOf image).entry (loadHeaders image)).segments i).Executable) := by
    intro i hi
    rw [segments_planOf hi]
    exact (hloadable.segments _ (List.getElem_mem hi)).writeXorExecute
  have hdisjoint := disjoint_planOf (ehdrOf image).entry (loadHeaders image)
  refine ⟨hsingle, hdisjoint, fun hheaders i j addr hi hj hp hq hwx => ?_⟩
  obtain rfl := hdisjoint.mpr hheaders i j addr hi hj hp hq
  exact hsingle i hi hwx

/-- An image with an executable segment at `0x1000` and a writable one at `0x1008`, of 16 bytes
each. -/
def overlappingImage : List UInt8 :=
  [0x7f, 0x45, 0x4c, 0x46, 0x02, 0x01, 0x01, 0, 0, 0, 0, 0, 0, 0, 0, 0, 0x02, 0, 0x3e, 0, 0x01, 0,
    0, 0, 0, 0x10, 0, 0, 0, 0, 0, 0, 0x40, 0, 0, 0, 0, 0, 0, 0, 0, 0, 0, 0, 0, 0, 0, 0, 0, 0, 0, 0,
    0x40, 0, 0x38, 0, 0x02, 0, 0, 0, 0, 0, 0, 0, 0x01, 0, 0, 0, 0x05, 0, 0, 0, 0, 0, 0, 0, 0, 0, 0,
    0, 0, 0x10, 0, 0, 0, 0, 0, 0, 0, 0, 0, 0, 0, 0, 0, 0, 0, 0, 0, 0, 0, 0, 0, 0, 0x10, 0, 0,
    0, 0, 0, 0, 0, 0, 0, 0, 0, 0, 0, 0, 0, 0x01, 0, 0, 0, 0x06, 0, 0, 0, 0, 0, 0, 0, 0, 0, 0, 0,
    0x08, 0x10, 0, 0, 0, 0, 0, 0, 0, 0, 0, 0, 0, 0, 0, 0, 0, 0, 0, 0, 0, 0, 0, 0, 0x10, 0, 0,
    0, 0, 0, 0, 0, 0, 0, 0, 0, 0, 0, 0, 0]

theorem overlappingImage_plan :
    ∃ plan, run (planLoad 176 ⟨0x1000, 0x10000⟩) (overlappingImage.getD · 0) =
        (.ok (.ok (), plan), (overlappingImage.getD · 0)) ∧ plan.segmentCount = 2 ∧
      (plan.segments 0).Covers 0x1008 ∧ (plan.segments 0).Executable ∧
      (plan.segments 1).Covers 0x1008 ∧ (plan.segments 1).Writable := by
  rw [run_planLoad]
  exact ⟨_, rfl, rfl, by decide, by decide, by decide, by decide⟩

theorem overlapping_segments_accepted :
    ∃ plan, run (planLoad 176 ⟨0x1000, 0x10000⟩) (overlappingImage.getD · 0) =
        (.ok (.ok (), plan), (overlappingImage.getD · 0)) ∧
      ¬ plan.Disjoint ∧ ¬ plan.WriteXorExecute := by
  obtain ⟨plan, hrun, hcount, hcode, hexec, hdata, hwrite⟩ := overlappingImage_plan
  refine ⟨plan, hrun, fun h => ?_, fun h => ?_⟩
  · exact absurd (h 0 1 0x1008 (by omega) (by omega) hcode hdata) (by decide)
  · exact h 1 0 0x1008 (by omega) (by omega) hdata hcode ⟨hwrite, hexec⟩

/-- None of the two segments is writable and executable on its own. -/
theorem planned_segments_write_xor_execute_overlapping :
    ∃ plan, run (planLoad 176 ⟨0x1000, 0x10000⟩) (overlappingImage.getD · 0) =
        (.ok (.ok (), plan), (overlappingImage.getD · 0)) ∧ plan.segmentCount = 2 ∧
      (∀ i < plan.segmentCount, ¬ ((plan.segments i).Writable ∧ (plan.segments i).Executable)) ∧
      ¬ HeadersDisjoint (overlappingImage.getD · 0) := by
  obtain ⟨plan, hrun, hcount, hcode, -, hdata, -⟩ := overlappingImage_plan
  have hexact := planned_segments_write_xor_execute _ _ _ plan hrun
  refine ⟨plan, hrun, hcount, hexact.1, fun hdisjoint => ?_⟩
  exact absurd (hexact.2.1.mpr hdisjoint 0 1 0x1008 (by omega) (by omega) hcode hdata) (by decide)

end Mcsos.Elf
