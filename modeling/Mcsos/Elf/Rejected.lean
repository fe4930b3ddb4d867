import Mcsos.Elf.PlanLoad

/-!
# What a rejected image leaves behind

`m11_elf64_plan_load` gets a plan with any contents, clears it at once, and fills it while it checks
the headers.  `planLoadInto` is the function with this plan as an argument; it leaves the same plan
as `planLoad`, which starts from the empty one, since every segment that a plan has is cleared first
(`run_planLoadInto`).

Each exit with an error clears the plan again, or comes before anything was written.  The last one
does not: an image whose program headers contain no `PT_LOAD` header is rejected after its entry
point was stored.
-/

namespace Mcsos.Elf

open Bytes Prog

/-- The loop of `m11_zero_plan` from segment `i` on. -/
def zeroSegments (segments : ℕ → SegmentPlan) (i : ℕ) : (remaining : ℕ) → ℕ → SegmentPlan
  | 0 => segments
  | remaining + 1 => zeroSegments (Function.update segments i ⟨0, 0, 0, 0, 0, 0⟩) (i + 1) remaining

/-- `m11_zero_plan` on a plan with some contents. -/
def ImagePlan.cleared (plan : ImagePlan) : ImagePlan :=
  ⟨0, 0, zeroSegments plan.segments 0 maxLoadSegments⟩

/-- The loop of `m11_elf64_plan_load` as in `planSegments`, where the plan that is cleared is the
one at hand. -/
def planSegmentsInto (imageSize : UInt64) (region : UserRegion) (phoff : ℕ) :
    (remaining i : ℕ) → ImagePlan → Prog ℕ UInt8 Err (Except Err Unit × ImagePlan)
  | 0, _, plan => pure (if plan.segmentCount = 0 then .error .segcount else .ok (), plan)
  | remaining + 1, i, plan => do
      let ph : Phdr ← readBytes phdrSize (phoff + phdrSize * i)
      if ph.type ≠ ptLoad then planSegmentsInto imageSize region phoff remaining (i + 1) plan
      else if maxLoadSegments ≤ plan.segmentCount then pure (.error .segcount, plan.cleared)
      else
        match validateLoadSegment ph imageSize region with
        | .error e => pure (.error e, plan.cleared)
        | .ok _ => planSegmentsInto imageSize region phoff remaining (i + 1) (plan.add ph.plan)

/-- `m11_elf64_plan_load` on an `out_plan` with some contents. -/
def planLoadInto (imageSize : UInt64) (region : UserRegion) (outPlan : ImagePlan) :
    Prog ℕ UInt8 Err (Except Err Unit × ImagePlan) :=
  if imageSize.toNat < ehdrSize then pure (.error .size, outPlan.cleared)
  else do
    let eh : Ehdr ← readBytes ehdrSize 0
    match validateHeader eh imageSize region with
    | .error e => pure (.error e, outPlan.cleared)
    | .ok _ =>
        planSegmentsInto imageSize region eh.phoff eh.phnum 0
          { outPlan.cleared with entry := eh.entry }

/-- The two plans have the same contents; a plan has eight segments. -/
structure ImagePlan.Same (p q : ImagePlan) : Prop where
  entry : p.entry = q.entry
  segmentCount : p.segmentCount = q.segmentCount
  segments : ∀ i < maxLoadSegments, p.segments i = q.segments i

/-- Nothing is in the plan. -/
def ImagePlan.IsZero (plan : ImagePlan) : Prop :=
  plan.entry = 0 ∧ plan.segmentCount = 0 ∧ ∀ i < maxLoadSegments, plan.segments i =
    ⟨0, 0, 0, 0, 0, 0⟩

variable {imageSize : UInt64} {region : UserRegion} {p q : ImagePlan} {image : ℕ → UInt8}

/-! ### The earlier contents of the plan -/

theorem zeroSegments_apply (segments : ℕ → SegmentPlan) (i remaining j : ℕ) :
    zeroSegments segments i remaining j =
      if i ≤ j ∧ j < i + remaining then ⟨0, 0, 0, 0, 0, 0⟩ else segments j := by
  induction remaining generalizing segments i with
  | zero => rw [zeroSegments, if_neg (by omega)]
  | succ remaining ih =>
      rw [zeroSegments, ih]
      rcases Nat.lt_trichotomy j i with hlt | rfl | hgt
      · rw [if_neg (by omega), if_neg (by omega), Function.update_of_ne hlt.ne]
      · rw [if_neg (by omega), if_pos (by omega), Function.update_self]
      · rw [Function.update_of_ne hgt.ne']
        by_cases hin : j < i + (remaining + 1)
        · rw [if_pos (by omega), if_pos (by omega)]
        · rw [if_neg (by omega), if_neg (by omega)]

theorem ImagePlan.cleared_same (plan : ImagePlan) : plan.cleared.Same zeroPlan := by
  refine ⟨rfl, rfl, fun i hi => ?_⟩
  have hin : 0 ≤ i ∧ i < 0 + maxLoadSegments := ⟨Nat.zero_le i, by omega⟩
  exact (zeroSegments_apply plan.segments 0 maxLoadSegments i).trans (if_pos hin)

theorem ImagePlan.Same.add (h : p.Same q) (seg : SegmentPlan) : (p.add seg).Same (q.add seg) := by
  refine ⟨h.entry, congrArg (· + 1) h.segmentCount, fun i hi => ?_⟩
  show Function.update p.segments p.segmentCount seg i =
    Function.update q.segments q.segmentCount seg i
  rw [h.segmentCount]
  by_cases hslot : i = q.segmentCount
  · rw [hslot, Function.update_self, Function.update_self]
  · rw [Function.update_of_ne hslot, Function.update_of_ne hslot, h.segments i hi]

theorem ImagePlan.Same.isZero_iff (h : p.Same q) : p.IsZero ↔ q.IsZero := by
  unfold ImagePlan.IsZero
  rw [h.entry, h.segmentCount]
  exact and_congr_right fun _ => and_congr_right fun _ =>
    forall₂_congr fun i hi => by rw [h.segments i hi]

/-- The loop ends with the same status and the same plan. -/
theorem run_planSegmentsInto (image : ℕ → UInt8) (phoff remaining i : ℕ) (h : p.Same q) :
    ∃ status p' q', run (planSegmentsInto imageSize region phoff remaining i p) image =
      (.ok (status, p'), image) ∧ run (planSegments imageSize region phoff remaining i q) image =
      (.ok (status, q'), image) ∧ p'.Same q' := by
  induction remaining generalizing i p q with
  | zero =>
      refine ⟨if q.segmentCount = 0 then .error .segcount else .ok (), p, q, ?_, rfl, h⟩
      rw [planSegmentsInto, h.segmentCount]
      rfl
  | succ remaining ih =>
      rw [planSegmentsInto, planSegments,
        run_bind_ok (run_readBytes image phdrSize (phoff + phdrSize * i)),
        run_bind_ok (run_readBytes image phdrSize (phoff + phdrSize * i)), ← phdrOf, h.segmentCount]
      by_cases htype : (phdrOf image phoff i).type = ptLoad
      · rw [if_neg (not_not.mpr htype), if_neg (not_not.mpr htype)]
        by_cases hfull : maxLoadSegments ≤ q.segmentCount
        · rw [if_pos hfull, if_pos hfull]
          exact ⟨.error .segcount, p.cleared, zeroPlan, rfl, rfl, p.cleared_same⟩
        · rw [if_neg hfull, if_neg hfull]
          cases validateLoadSegment (phdrOf image phoff i) imageSize region with
          | error e => exact ⟨.error e, p.cleared, zeroPlan, rfl, rfl, p.cleared_same⟩
          | ok u => exact ih (i + 1) (h.add _)
      · rw [if_pos htype, if_pos htype]
        exact ih (i + 1) h

theorem run_planLoadInto (image : ℕ → UInt8) (imageSize : UInt64) (region : UserRegion)
    (outPlan : ImagePlan) :
    ∃ status p' q', run (planLoadInto imageSize region outPlan) image = (.ok (status, p'), image) ∧
      run (planLoad imageSize region) image = (.ok (status, q'), image) ∧ p'.Same q' := by
  have hclear : outPlan.cleared.Same zeroPlan := outPlan.cleared_same
  by_cases hsize : imageSize.toNat < ehdrSize
  · rw [planLoadInto, planLoad, if_pos hsize, if_pos hsize]
    exact ⟨.error .size, outPlan.cleared, zeroPlan, rfl, rfl, hclear⟩
  · rw [planLoadInto, planLoad, if_neg hsize, if_neg hsize,
      run_bind_ok (run_readBytes image ehdrSize 0),
      run_bind_ok (run_readBytes image ehdrSize 0)]
    cases validateHeader (Bytes.ofFn fun i => image (0 + i)) imageSize region with
    | error e => exact ⟨.error e, outPlan.cleared, zeroPlan, rfl, rfl, hclear⟩
    | ok u => exact run_planSegmentsInto image _ _ 0 ⟨rfl, hclear.segmentCount, hclear.segments⟩

/-- Status and plan are those that the loader gives for an empty plan. -/
theorem exists_run_planLoadInto (image : ℕ → UInt8) (imageSize : UInt64) (region : UserRegion)
    (outPlan : ImagePlan) :
    ∃ plan, run (planLoadInto imageSize region outPlan) image =
        (.ok ((planResult image imageSize region).1, plan), image) ∧
      plan.Same (planResult image imageSize region).2 := by
  obtain ⟨status, plan, plan', hrun, hrun', hsame⟩ :=
    run_planLoadInto image imageSize region outPlan
  obtain ⟨hstatus, hplan⟩ : (planResult image imageSize region).1 = status ∧
      (planResult image imageSize region).2 = plan' := by
    simpa [run_planLoad, Prod.ext_iff] using hrun'
  rw [hstatus, hplan]
  exact ⟨plan, hrun, hsame⟩

/-! ### What an exit with an error leaves -/

theorem isZero_zeroPlan : zeroPlan.IsZero := ⟨rfl, rfl, fun _ _ => rfl⟩

/-- The loop over the `PT_LOAD` headers fails with an empty plan, or there was no such header. -/
theorem planHeaders_error (entry : ℕ) (done rest : List Phdr) {e : Err}
    (h : (planHeaders imageSize region rest (planOf entry done)).1 = .error e) :
    (planHeaders imageSize region rest (planOf entry done)).2 = zeroPlan ∨ done ++ rest = [] := by
  induction rest generalizing done with
  | nil =>
      cases done with
      | nil => exact Or.inr rfl
      | cons ph done =>
          have hcount : (planOf entry (ph :: done)).segmentCount ≠ 0 := Nat.succ_ne_zero _
          rw [planHeaders, if_neg hcount] at h
          cases h
  | cons ph rest ih =>
      rw [planHeaders] at h ⊢
      by_cases hfull : maxLoadSegments ≤ (planOf entry done).segmentCount
      · exact Or.inl (by rw [if_pos hfull])
      · rw [if_neg hfull] at h ⊢
        cases hvalid : validateLoadSegment ph imageSize region with
        | error e => exact Or.inl rfl
        | ok u =>
            simp only [hvalid, add_planOf] at h ⊢
            rw [List.append_cons done ph rest]
            exact ih (done ++ [ph]) h

/-- The image is rejected for want of a `PT_LOAD` header, after its entry point was stored. -/
structure EntryLeft (image : ℕ → UInt8) (imageSize : UInt64) (region : UserRegion) : Prop where
  size : ehdrSize ≤ imageSize.toNat
  header : HeaderOk (ehdrOf image) imageSize region
  noLoad : loadHeaders image = []
  entry : (ehdrOf image).entry ≠ 0

theorem planResult_isZero_iff (image : ℕ → UInt8) (imageSize : UInt64) (region : UserRegion) :
    (∀ e, (planResult image imageSize region).1 = .error e →
      (planResult image imageSize region).2.IsZero) ↔
      ¬ EntryLeft image imageSize region := by
  unfold planResult
  by_cases hsize : imageSize.toNat < ehdrSize
  · rw [if_pos hsize]
    exact ⟨fun _ hleft => absurd hleft.size (Nat.not_le.mpr hsize), fun _ _ _ => isZero_zeroPlan⟩
  rw [if_neg hsize]
  cases hheader : validateHeader (ehdrOf image) imageSize region with
  | error e =>
      refine ⟨fun _ hleft => ?_, fun _ _ _ => isZero_zeroPlan⟩
      rw [validateHeader_eq_ok.mpr hleft.header] at hheader
      cases hheader
  | ok u =>
      have hok : HeaderOk (ehdrOf image) imageSize region := validateHeader_eq_ok.mp hheader
      by_cases hloads : loadHeaders image = []
      · -- the loop ends at once, and the plan has the entry point and nothing else
        rw [hloads]
        constructor
        · intro hzero hleft
          exact hleft.entry (hzero .segcount rfl).1
        · intro hnone e _
          have hentry : (ehdrOf image).entry = 0 :=
            Classical.not_not.mp fun hne => hnone ⟨Nat.not_lt.mp hsize, hok, hloads, hne⟩
          exact ⟨hentry, rfl, fun _ _ => rfl⟩
      · refine ⟨fun _ hleft => hloads hleft.noLoad, fun _ e he => ?_⟩
        rcases planHeaders_error (ehdrOf image).entry [] (loadHeaders image) he with hzero | hnone
        · rw [hzero]
          exact isZero_zeroPlan
        · exact absurd hnone hloads

/-- **Rejected images.**  Whatever the plan contained, a rejected image leaves it empty, unless the
image has a good ELF header with a nonzero entry point and no `PT_LOAD` header. -/
theorem rejected_plan_zero_iff (image : ℕ → UInt8) (imageSize : UInt64) (region : UserRegion)
    (outPlan : ImagePlan) :
    ∃ status plan, run (planLoadInto imageSize region outPlan) image = (.ok (status, plan), image) ∧
      ((∀ e, status = .error e → plan.IsZero) ↔ ¬ EntryLeft image imageSize region) := by
  obtain ⟨plan, hrun, hsame⟩ := exists_run_planLoadInto image imageSize region outPlan
  refine ⟨_, plan, hrun, ?_⟩
  rw [← planResult_isZero_iff, hsame.isZero_iff]

/-- An image with a `PT_NULL` header and the entry point `0x1000`. -/
def noLoadImage : List UInt8 :=
  [0x7f, 0x45, 0x4c, 0x46, 0x02, 0x01, 0x01, 0, 0, 0, 0, 0, 0, 0, 0, 0, 0x02, 0, 0x3e, 0, 0x01, 0,
    0, 0, 0, 0x10, 0, 0, 0, 0, 0, 0, 0x40, 0, 0, 0, 0, 0, 0, 0, 0, 0, 0, 0, 0, 0, 0, 0, 0, 0, 0, 0,
    0x40, 0, 0x38, 0, 0x01, 0, 0, 0, 0, 0, 0, 0]

/-- The image is rejected, and the entry point is in the plan, which was empty before. -/
theorem noLoadImage_leaves_entry :
    ∃ plan, run (planLoadInto 120 ⟨0x1000, 0x10000⟩ zeroPlan) (noLoadImage.getD · 0) =
        (.ok (.error .segcount, plan), (noLoadImage.getD · 0)) ∧ plan.entry = 0x1000 ∧
        ¬ plan.IsZero := by
  obtain ⟨plan, hrun, hsame⟩ :=
    exists_run_planLoadInto (noLoadImage.getD · 0) 120 ⟨0x1000, 0x10000⟩ zeroPlan
  have hsegcount : (planResult (noLoadImage.getD · 0) 120 ⟨0x1000, 0x10000⟩).1 = .error .segcount :=
    rfl
  have hentry : plan.entry = 0x1000 := by
    rw [hsame.entry]
    rfl
  refine ⟨plan, ?_, hentry, fun hzero => ?_⟩
  · rw [hrun, hsegcount]
  · exact absurd (hentry.symm.trans hzero.1) (by decide)

end Mcsos.Elf
