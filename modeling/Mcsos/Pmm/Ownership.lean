import Mcsos.Pmm.Invariant

/-!
# Frames that are handed out

The calls of the memory manager in terms of the free frames, and what follows for a client that
frees only frames it was given: no frame is handed out twice, and the counters stay exact.
-/

namespace Mcsos.Pmm

open Bytes

variable {n : ℕ} {pmm pmm' : PmmState n} {regions : List BootMemRegion} {storage : Bytes n}
  {maxPhysBytes : UInt64} {f a : ℕ}

/-! ## Initialisation -/

/-- All bits of the bitmap are set at first. -/
theorem testBit_startState (storage : Bytes n) {m : ℕ} (hsize : (m / pageSize + 7) / 8 ≤ n)
    (hf : f < 8 * ((m / pageSize + 7) / 8)) : (startState storage m).bitmap.testBit f = true := by
  have hbyte : (startState storage m).bitmap.byte (f / 8) = 0xff := by
    unfold startState
    rw [byte_splice_of_inside storage _ (by omega) (by omega)]
  have hones : ∀ k < 8, (0xff : UInt8).toBitVec.getLsbD k = true := by decide
  rw [testBit_eq, hbyte]
  exact hones _ (Nat.mod_lt _ (by decide))

theorem startState_ok (storage : Bytes n) {m : ℕ} (hsize : (m / pageSize + 7) / 8 ≤ n)
    (hpage : m / pageSize * pageSize = m) : PmmOk (startState storage m) := by
  have hnone : ∀ f, ¬ IsFree (startState storage m) f := by
    rintro f ⟨hf, hclear⟩
    have hf' : f < m / pageSize := hf
    rw [testBit_startState storage hsize (by omega)] at hclear
    cases hclear
  refine ⟨hsize, hpage.symm, ?_, rfl, fun f _ hhigh => testBit_startState storage hsize hhigh,
    Nat.zero_le _⟩
  exact (Finset.card_eq_zero.mpr (Finset.filter_false_of_mem fun f _ => hnone f)).symm

/-- The usable regions that `pmm_init_from_map` works on. -/
theorem freeUsable_leads (regions : List BootMemRegion) (h : PmmOk pmm) :
    Leads pmm (freeUsable regions pmm) fun f => IsFree pmm f ∨
      ∃ r ∈ regions, r.type = bootMemUsable ∧ FreedBy r.base.toNat r.length.toNat f := by
  unfold freeUsable
  induction regions generalizing pmm with
  | nil => exact (leads_self h).congr fun f _ => by simp
  | cons r regions ih =>
      rw [List.foldl_cons]
      by_cases htype : r.type = bootMemUsable
      · have hhead : Leads pmm (markRangeFree pmm r.base.toNat r.length.toNat) _ :=
          markRangeFree_leads h r.base.toNat_lt
        rw [if_pos htype]
        refine (hhead.trans (ih hhead.ok)).congr fun f hf => ?_
        rw [hhead.free]
        simp [hf, htype, or_assoc]
      · rw [if_neg htype]
        refine (ih h).congr fun f _ => ?_
        simp [htype]

/-- The other regions that `pmm_init_from_map` works on. -/
theorem reserveOthers_leads (regions : List BootMemRegion) (h : PmmOk pmm) :
    Leads pmm (reserveOthers regions pmm) fun f => IsFree pmm f ∧
      ∀ r ∈ regions, r.type ≠ bootMemUsable → ¬ ReservedBy r.base.toNat r.length.toNat f := by
  unfold reserveOthers
  induction regions generalizing pmm with
  | nil => exact (leads_self h).congr fun f _ => by simp
  | cons r regions ih =>
      rw [List.foldl_cons]
      by_cases htype : r.type ≠ bootMemUsable
      · have hhead : Leads pmm (markRangeUsed pmm r.base.toNat r.length.toNat) _ :=
          markRangeUsed_leads h r.base.toNat_lt
        rw [if_pos htype]
        refine (hhead.trans (ih hhead.ok)).congr fun f hf => ?_
        rw [hhead.free]
        simp [hf, htype, and_assoc]
      · rw [if_neg htype]
        refine (ih h).congr fun f _ => ?_
        simp [not_not.mp htype]

/-- The first page is reserved, and nothing else with it. -/
theorem reservedBy_first_page (f : ℕ) : ReservedBy 0 pageSize f ↔ f = 0 := by
  have hdown : alignDown 0 pageSize = 0 := by decide
  have hup : alignUp (0 + pageSize) pageSize = pageSize := by decide
  unfold ReservedBy
  rw [hdown, hup]
  simp only [pageSize]
  omega

/-- The state of an initialised memory manager, in terms of its input. -/
structure Booted (regions : List BootMemRegion) (maxPhysBytes : UInt64) (pmm : PmmState n) :
    Prop where
  ok : PmmOk pmm
  initialized : pmm.initialized = true
  maxPhys : pmm.maxPhys = maxPhysBytes.toNat
  free : ∀ f, IsFree pmm f ↔ f < pmm.frameCount ∧ f ≠ 0 ∧
    (∃ r ∈ regions, r.type = bootMemUsable ∧ FreedBy r.base.toNat r.length.toNat f) ∧
    ∀ r ∈ regions, r.type ≠ bootMemUsable → ¬ ReservedBy r.base.toNat r.length.toNat f

theorem and_page_mask (v : ℕ) : v &&& (pageSize - 1) = v % pageSize :=
  Nat.and_two_pow_sub_one_eq_mod v 12

/-- The three stages of `pmm_init_from_map`. -/
theorem pmmInitFromMap_eq (h : pmmInitFromMap regions storage maxPhysBytes = some pmm) :
    PmmOk (startState storage maxPhysBytes.toNat) ∧
      pmm = { reserveOthers regions (markRangeUsed
        (freeUsable regions (startState storage maxPhysBytes.toNat)) 0 pageSize) with
        initialized := true } := by
  unfold pmmInitFromMap at h
  split_ifs at h with hregions haligned hsize
  obtain ⟨hnonzero, hpage⟩ := not_or.mp haligned
  rw [not_not, and_page_mask] at hpage
  exact ⟨startState_ok storage (Nat.not_lt.mp hsize)
    (Nat.div_mul_cancel (Nat.dvd_of_mod_eq_zero hpage)), (Option.some.inj h).symm⟩

theorem pmmInitFromMap_booted (h : pmmInitFromMap regions storage maxPhysBytes = some pmm) :
    Booted regions maxPhysBytes pmm := by
  obtain ⟨hstart, rfl⟩ := pmmInitFromMap_eq h
  have husable := freeUsable_leads regions hstart
  have hfirst : Leads _ (markRangeUsed _ 0 pageSize) _ := markRangeUsed_leads husable.ok (by decide)
  have hothers := reserveOthers_leads regions hfirst.ok
  have hall := husable.trans (hfirst.trans hothers)
  refine ⟨⟨hall.ok.size, hall.ok.maxPhys, hall.ok.free, hall.ok.used, hall.ok.beyond, hall.ok.hint⟩,
    rfl, hall.maxPhys, fun f => ?_⟩
  have hnone : ¬ IsFree (startState storage maxPhysBytes.toNat) f := by
    intro hf
    have := hstart.free_pos hf
    exact absurd this (Nat.lt_irrefl 0)
  refine Iff.trans (hall.free f) ?_
  rw [hfirst.free, husable.free, reservedBy_first_page, husable.frameCount, ← hall.frameCount]
  constructor
  · rintro ⟨hf, ⟨-, ⟨-, hby⟩, hne⟩, hnot⟩
    exact ⟨hf, hne, hby.resolve_left hnone, hnot⟩
  · rintro ⟨hf, hne, hby, hnot⟩
    exact ⟨hf, ⟨hf, ⟨hf, Or.inr hby⟩, hne⟩, hnot⟩

/-! ## The calls -/

theorem takeFrame_leads (h : PmmOk pmm) (hf : IsFree pmm f) :
    Leads pmm (takeFrame pmm f).2 fun g => IsFree pmm g ∧ g ≠ f := by
  unfold takeFrame
  rw [markFrameUsed_eq h hf]
  exact set_leads h hf hf.lt

/-- `pmm_alloc_frame` takes a free frame or changes nothing. -/
theorem pmmAllocFrame_cases (h : PmmOk pmm) :
    pmmAllocFrame pmm = (none, pmm) ∨ ∃ f, IsFree pmm f ∧ pmmAllocFrame pmm = takeFrame pmm f := by
  unfold pmmAllocFrame
  split_ifs
  · exact Or.inl rfl
  · cases hfirst : (List.range' pmm.nextHint (pmm.frameCount - pmm.nextHint)).find?
        (!pmm.bitmap.testBit ·) with
    | some f =>
        have hmem := List.mem_range'_1.mp (List.mem_of_find?_eq_some hfirst)
        have hclear := List.find?_some hfirst
        exact Or.inr ⟨f, ⟨by omega, by simpa using hclear⟩, rfl⟩
    | none =>
        cases hsecond : (List.range pmm.nextHint).find? (!pmm.bitmap.testBit ·) with
        | some f =>
            have hmem := List.mem_range.mp (List.mem_of_find?_eq_some hsecond)
            have hclear := List.find?_some hsecond
            exact Or.inr ⟨f, ⟨hmem.trans_le h.hint, by simpa using hclear⟩, rfl⟩
        | none => exact Or.inl rfl

/-- `pmm_free_frame` frees a frame in use, or changes nothing. -/
theorem pmmFreeFrame_cases (h : PmmOk pmm) (a : ℕ) :
    pmmFreeFrame pmm a = (false, pmm) ∨
    ∃ f, a = f * pageSize ∧ f ≠ 0 ∧ f < pmm.frameCount ∧ ¬ IsFree pmm f ∧
      pmmFreeFrame pmm a = (true, markFrameFree pmm f) := by
  unfold pmmFreeFrame
  split_ifs with hinit hrange hfree
  · exact Or.inl rfl
  · exact Or.inl rfl
  · exact Or.inl rfl
  · rw [not_or, not_or, not_not, and_page_mask, h.maxPhys, Nat.not_le] at hrange
    obtain ⟨haligned, hnonzero, hbelow⟩ := hrange
    have hframe : a / pageSize * pageSize = a :=
      Nat.div_mul_cancel (Nat.dvd_of_mod_eq_zero haligned)
    refine Or.inr ⟨a / pageSize, hframe.symm, fun hzero => ?_, ?_, fun hclear => ?_, rfl⟩
    · rw [hzero, Nat.zero_mul] at hframe
      exact hnonzero hframe.symm
    · rwa [← page_lt, hframe]
    · rw [hclear.2] at hfree
      exact hfree rfl

/-- A frame that is free already is not freed. -/
theorem pmmFreeFrame_of_free (h : PmmOk pmm) (hfree : IsFree pmm (a / pageSize)) :
    pmmFreeFrame pmm a = (false, pmm) := by
  rcases pmmFreeFrame_cases h a with heq | ⟨f, rfl, -, -, hused, -⟩
  · exact heq
  · rw [Nat.mul_div_cancel f (by decide)] at hfree
    exact absurd hfree hused

theorem pmmReserveRange_leads (h : PmmOk pmm) (base length : UInt64) :
    ∃ F, Leads pmm (pmmReserveRange pmm base.toNat length.toNat).2 F ∧
      ∀ f, F f → IsFree pmm f := by
  unfold pmmReserveRange
  split_ifs
  · exact ⟨_, leads_self h, fun f hf => hf⟩
  · exact ⟨_, markRangeUsed_leads h base.toNat_lt, fun f hf => hf.1⟩

/-! ## Runs -/

/-- The states after `pmm_init_from_map` and calls of a client, with the addresses it was given and
has not freed. -/
inductive Reached (regions : List BootMemRegion) (storage : Bytes n) (maxPhysBytes : UInt64) :
    PmmState n → List ℕ → Prop where
  | init {pmm : PmmState n} (h : pmmInitFromMap regions storage maxPhysBytes = some pmm) :
      Reached regions storage maxPhysBytes pmm []
  | alloc {pmm pmm' : PmmState n} {handed : List ℕ} {a : ℕ}
      (h : Reached regions storage maxPhysBytes pmm handed)
      (hcall : pmmAllocFrame pmm = (some a, pmm')) :
      Reached regions storage maxPhysBytes pmm' (a :: handed)
  | allocFails {pmm pmm' : PmmState n} {handed : List ℕ}
      (h : Reached regions storage maxPhysBytes pmm handed)
      (hcall : pmmAllocFrame pmm = (none, pmm')) :
      Reached regions storage maxPhysBytes pmm' handed
  | reserve {pmm : PmmState n} {handed : List ℕ} (base length : UInt64)
      (h : Reached regions storage maxPhysBytes pmm handed) :
      Reached regions storage maxPhysBytes (pmmReserveRange pmm base.toNat length.toNat).2 handed
  | free {pmm : PmmState n} {handed : List ℕ} {a : ℕ}
      (h : Reached regions storage maxPhysBytes pmm handed) (ha : a ∈ handed) :
      Reached regions storage maxPhysBytes (pmmFreeFrame pmm a).2 (handed.erase a)

/-- What holds along a run: the frames of the client are different ones, and in use. -/
structure Owned (maxPhysBytes : UInt64) (pmm : PmmState n) (handed : List ℕ) : Prop where
  ok : PmmOk pmm
  maxPhys : pmm.maxPhys = maxPhysBytes.toNat
  first : ¬ IsFree pmm 0
  nodup : handed.Nodup
  inUse : ∀ a ∈ handed, ∃ f, a = f * pageSize ∧ f < pmm.frameCount ∧ f ≠ 0 ∧ ¬ IsFree pmm f

variable {handed : List ℕ}

/-- A step that frees no frame. -/
theorem Owned.shrink {F : ℕ → Prop} (h : Owned maxPhysBytes pmm handed) (hleads : Leads pmm pmm' F)
    (hsub : ∀ f, F f → IsFree pmm f) : Owned maxPhysBytes pmm' handed := by
  have hless : ∀ f, IsFree pmm' f → IsFree pmm f := fun f hf => hsub f ((hleads.free f).mp hf).2
  refine ⟨hleads.ok, hleads.maxPhys.trans h.maxPhys, fun hf => h.first (hless 0 hf), h.nodup, ?_⟩
  intro a ha
  obtain ⟨f, rfl, hf, hne, hused⟩ := h.inUse a ha
  exact ⟨f, rfl, hleads.frameCount.symm ▸ hf, hne, fun hfree => hused (hless f hfree)⟩

/-- The frame that is taken was free, so the client did not have it. -/
theorem Owned.take (h : Owned maxPhysBytes pmm handed) (hf : IsFree pmm f) :
    Owned maxPhysBytes (takeFrame pmm f).2 (f * pageSize :: handed) := by
  have hleads := takeFrame_leads h.ok hf
  have hrest := h.shrink hleads fun g hg => hg.1
  refine ⟨hrest.ok, hrest.maxPhys, hrest.first, List.nodup_cons.mpr ⟨fun hmem => ?_, h.nodup⟩,
    List.forall_mem_cons.mpr ⟨⟨f, rfl, ?_, ?_, ?_⟩, hrest.inUse⟩⟩
  · obtain ⟨g, heq, -, -, hused⟩ := h.inUse _ hmem
    obtain rfl : f = g := Nat.eq_of_mul_eq_mul_right (by decide) heq
    exact hused hf
  · rw [hleads.frameCount]
    exact hf.lt
  · rintro rfl
    exact h.first hf
  · rw [hleads.free]
    exact fun hfree => hfree.2.2 rfl

/-- The frame that is freed is no longer the client's. -/
theorem Owned.give (h : Owned maxPhysBytes pmm handed) (ha : a ∈ handed) :
    Owned maxPhysBytes (pmmFreeFrame pmm a).2 (handed.erase a) := by
  rcases pmmFreeFrame_cases h.ok a with heq | ⟨f, rfl, hne, hf, -, heq⟩
  · rw [heq]
    exact ⟨h.ok, h.maxPhys, h.first, h.nodup.erase a, fun b hb => h.inUse b
      (List.mem_of_mem_erase hb)⟩
  · have hleads := markFrameFree_leads h.ok f
    rw [heq]
    refine ⟨hleads.ok, hleads.maxPhys.trans h.maxPhys, fun hfree => ?_, h.nodup.erase _, ?_⟩
    · rcases ((hleads.free 0).mp hfree).2 with hold | hzero
      · exact h.first hold
      · exact hne hzero.symm
    · intro b hb
      obtain ⟨hbf, hmem⟩ := h.nodup.mem_erase_iff.mp hb
      obtain ⟨g, rfl, hg, hgne, hused⟩ := h.inUse b hmem
      refine ⟨g, rfl, hleads.frameCount.symm ▸ hg, hgne, fun hfree => ?_⟩
      rcases ((hleads.free g).mp hfree).2 with hold | rfl
      · exact hused hold
      · exact hbf rfl

theorem Reached.owned (h : Reached regions storage maxPhysBytes pmm handed) :
    Owned maxPhysBytes pmm handed := by
  induction h with
  | init h =>
      have hbooted := pmmInitFromMap_booted h
      exact ⟨hbooted.ok, hbooted.maxPhys, fun hf => ((hbooted.free 0).mp hf).2.1 rfl,
        List.nodup_nil, fun a ha => absurd ha List.not_mem_nil⟩
  | alloc h hcall ih =>
      rcases pmmAllocFrame_cases ih.ok with heq | ⟨f, hf, heq⟩
      · rw [heq] at hcall
        cases hcall
      · rw [heq] at hcall
        cases hcall
        exact ih.take hf
  | allocFails h hcall ih =>
      rcases pmmAllocFrame_cases ih.ok with heq | ⟨f, hf, heq⟩
      · rw [heq] at hcall
        cases hcall
        exact ih
      · rw [heq] at hcall
        cases hcall
  | reserve base length h ih =>
      obtain ⟨F, hleads, hsub⟩ := pmmReserveRange_leads ih.ok base length
      exact ih.shrink hleads hsub
  | free h ha ih => exact ih.give ha

/-- **Frame ownership.**  Along every run of a client that frees only what it was given, the frames
it has are pairwise distinct, aligned, inside the memory and never the first one.  The counters are
exact, the bits behind the last frame are set, and freeing a free frame once more is refused. -/
theorem frames_owned (regions : List BootMemRegion) (storage : Bytes n) (maxPhysBytes : UInt64)
    (pmm : PmmState n) (handed : List ℕ) (h : Reached regions storage maxPhysBytes pmm handed) :
    handed.Nodup ∧
    (∀ a ∈ handed, pageSize ∣ a ∧ a < maxPhysBytes.toNat ∧ a ≠ 0) ∧
    pmm.freeFrames = (freeSet pmm).card ∧
    pmm.usedFrames + pmm.freeFrames = pmm.frameCount ∧
    (∀ f, pmm.frameCount ≤ f → f < 8 * ((pmm.frameCount + 7) / 8) → pmm.bitmap.testBit f = true) ∧
    ∀ a, IsFree pmm (a / pageSize) → pmmFreeFrame pmm a = (false, pmm) := by
  have howned := h.owned
  refine ⟨howned.nodup, fun a ha => ?_, howned.ok.free, howned.ok.used, howned.ok.beyond,
    fun a => pmmFreeFrame_of_free howned.ok⟩
  obtain ⟨f, rfl, hf, hne, -⟩ := howned.inUse a ha
  refine ⟨Nat.dvd_mul_left _ _, ?_, Nat.mul_ne_zero hne (by decide)⟩
  rw [← howned.maxPhys, howned.ok.maxPhys]
  exact page_lt.mpr hf

/-- Two frames of a memory of four, of which the first and the last are not usable. -/
theorem frames_owned_two_frames :
    ∃ pmm : PmmState 1, Reached [⟨0, 0x3000, bootMemUsable⟩] Bytes.zero 0x4000 pmm
      [0x2000, 0x1000] ∧ pmm.freeFrames = (freeSet pmm).card ∧ pmm.freeFrames = 0 ∧
      pmm.usedFrames = 4 := by
  have hinit : Reached [⟨0, 0x3000, bootMemUsable⟩] (Bytes.zero : Bytes 1) 0x4000 _ [] := .init rfl
  have hfirst := hinit.alloc (a := 0x1000) rfl
  have hsecond := hfirst.alloc (a := 0x2000) rfl
  exact ⟨_, hsecond, (frames_owned _ _ _ _ _ hsecond).2.2.1, rfl, rfl⟩

end Mcsos.Pmm
