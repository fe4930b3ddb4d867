import Mcsos.Pmm.Ownership

/-!
# Memory maps that reach the end of the address space

After `pmm_init_from_map` a frame should be free only if it lies inside a usable region and meets no
other region.  The code rounds addresses up with an addition that wraps around in the last page of
the address space.  A usable region inside that page then frees the whole memory, and a region of
another type that ends there, or behind it, is not reserved at all.

`boot_map_safe_iff` says when this does no harm.  A map without such regions is the common case;
`boot_map_exact` says what its effect is.
-/

namespace Mcsos.Pmm

variable {n : ℕ} {pmm : PmmState n} {regions : List BootMemRegion} {storage : Bytes n}
  {maxPhysBytes : UInt64} {r : BootMemRegion} {f : ℕ}

namespace BootMemRegion

/-- The region can be used. -/
def Usable (r : BootMemRegion) : Prop := r.type = bootMemUsable

/-- The page of frame `f` lies inside of the region. -/
def Contains (r : BootMemRegion) (f : ℕ) : Prop :=
  r.base.toNat ≤ f * pageSize ∧ f * pageSize + pageSize ≤ r.base.toNat + r.length.toNat

/-- The page of frame `f` has an address of the region. -/
def Meets (r : BootMemRegion) (f : ℕ) : Prop :=
  ∃ addr, (r.base.toNat ≤ addr ∧ addr < r.base.toNat + r.length.toNat) ∧
    (f * pageSize ≤ addr ∧ addr < f * pageSize + pageSize)

/-- The region is not empty and lies inside of the last page of the address space, without its last
byte. -/
def InLastPage (r : BootMemRegion) : Prop :=
  0 < r.length.toNat ∧ 2 ^ 64 - pageSize < r.base.toNat ∧ r.base.toNat + r.length.toNat < 2 ^ 64

/-- The region ends inside of the last page of the address space, or behind it. -/
def EndsInLastPage (r : BootMemRegion) : Prop := 2 ^ 64 - pageSize < r.base.toNat + r.length.toNat

theorem meets_iff : r.Meets f ↔ 0 < r.length.toNat ∧ r.base.toNat < f * pageSize + pageSize ∧
    f * pageSize < r.base.toNat + r.length.toNat := by
  constructor
  · rintro ⟨addr, hregion, hpage⟩
    omega
  · rintro ⟨hpos, hlow, hhigh⟩
    refine ⟨max r.base.toNat (f * pageSize), ?_, ?_⟩
    · omega
    · simp only [pageSize] at hlow hhigh ⊢
      omega

end BootMemRegion

open BootMemRegion

/-- A frame is free only if it is not the first one, lies inside of a usable region, and meets no
region of another type. -/
def BootMapSafe (regions : List BootMemRegion) (pmm : PmmState n) : Prop :=
  ∀ f, IsFree pmm f → f ≠ 0 ∧ (∃ r ∈ regions, r.Usable ∧ r.Contains f) ∧
    ∀ r ∈ regions, ¬ r.Usable → ¬ r.Meets f

/-- The frame meets a region that is reserved as it should be. -/
def Reserved (regions : List BootMemRegion) (f : ℕ) : Prop :=
  ∃ r ∈ regions, ¬ r.Usable ∧ ¬ r.EndsInLastPage ∧ r.Meets f

/-- If a usable region lies inside of the last page, then every other frame lies inside of a usable
region or is reserved. -/
def LastPageHarmless (regions : List BootMemRegion) (frames : ℕ) : Prop :=
  (∃ r ∈ regions, r.Usable ∧ r.InLastPage) → ∀ f, f ≠ 0 → f < frames →
    (∃ r ∈ regions, r.Usable ∧ r.Contains f) ∨ Reserved regions f

/-- Every frame that meets a region which is not usable and ends in the last page or behind it is
reserved because of another region, or lies inside of no usable region. -/
def LastEndsHarmless (regions : List BootMemRegion) (frames : ℕ) : Prop :=
  ∀ f, f ≠ 0 → f < frames → (∃ r ∈ regions, ¬ r.Usable ∧ r.EndsInLastPage ∧ r.Meets f) →
    Reserved regions f ∨ ∀ r ∈ regions, r.Usable → ¬ r.InLastPage ∧
      ¬ (r.Contains f ∧ r.base.toNat + r.length.toNat < 2 ^ 64)

/-! ## The two loops -/

/-- A usable region frees the frames inside of it, and all of them if it lies inside of the last
page. -/
theorem freedBy_iff (hf : f * pageSize + pageSize ≤ 2 ^ 64 - pageSize) :
    FreedBy r.base.toNat r.length.toNat f ↔
      (r.Contains f ∧ r.base.toNat + r.length.toNat < 2 ^ 64) ∨ r.InLastPage := by
  have hbase := r.base.toNat_lt
  unfold FreedBy Contains InLastPage
  by_cases hfit : r.base.toNat + r.length.toNat < 2 ^ 64
  · rw [alignDown_eq hfit]
    rcases Nat.lt_or_ge (2 ^ 64 - pageSize) r.base.toNat with hlast | hlow
    · rw [alignUp_wrap hlast hbase]
      simp only [pageSize] at hf hlast ⊢
      omega
    · rw [alignUp_eq hlow]
      simp only [pageSize] at hf hlow ⊢
      omega
  · simp only [hfit, false_and, and_false, or_self]

/-- A region of another type reserves the frames it meets, unless it ends in the last page. -/
theorem reservedBy_iff : ReservedBy r.base.toNat r.length.toNat f ↔ ¬ r.EndsInLastPage ∧
    r.Meets f := by
  rw [meets_iff]
  have hbase := r.base.toNat_lt
  unfold ReservedBy EndsInLastPage
  by_cases hfit : r.base.toNat + r.length.toNat < 2 ^ 64
  · rw [alignDown_eq hbase]
    rcases Nat.lt_or_ge (2 ^ 64 - pageSize) (r.base.toNat + r.length.toNat) with hlast | hlow
    · rw [alignUp_wrap hlast hfit]
      simp only [Nat.not_lt_zero, and_false, hlast, not_true_eq_false, false_and]
    · rw [alignUp_eq hlow]
      simp only [pageSize] at hlow ⊢
      omega
  · simp only [hfit, false_and, and_false, false_iff, not_and]
    simp only [pageSize]
    omega

/-- The free frames of an initialised memory manager. -/
theorem Booted.isFree_iff (h : Booted regions maxPhysBytes pmm) (f : ℕ) :
    IsFree pmm f ↔ f < pmm.frameCount ∧ f ≠ 0 ∧
      (∃ r ∈ regions, r.Usable ∧
        ((r.Contains f ∧ r.base.toNat + r.length.toNat < 2 ^ 64) ∨ r.InLastPage)) ∧
      ¬ Reserved regions f := by
  rw [h.free]
  refine and_congr_right fun hf => and_congr_right fun _ => and_congr ?_ ?_
  · -- the memory ends before the last page, as its size is a multiple of the page size
    have hpage : f * pageSize + pageSize ≤ 2 ^ 64 - pageSize := by
      have hmax := maxPhysBytes.toNat_lt
      rw [← h.maxPhys, h.ok.maxPhys] at hmax
      simp only [pageSize] at hmax ⊢
      omega
    exact exists_congr fun r => and_congr_right fun _ => and_congr_right fun _ => freedBy_iff hpage
  · unfold Reserved
    constructor
    · rintro hnot ⟨r, hr, htype, hends, hmeets⟩
      exact hnot r hr htype (reservedBy_iff.mpr ⟨hends, hmeets⟩)
    · intro hnot r hr htype hby
      exact hnot ⟨r, hr, htype, reservedBy_iff.mp hby⟩

theorem Booted.frameCount (h : Booted regions maxPhysBytes pmm) :
    pmm.frameCount = maxPhysBytes.toNat / pageSize := by
  rw [← h.maxPhys, h.ok.maxPhys, Nat.mul_div_cancel _ (by decide)]

/-- **The memory map of the boot loader.**  After `pmm_init_from_map` the free frames are as they
should be exactly if the regions in the last page of the address space do no harm. -/
theorem boot_map_safe_iff (regions : List BootMemRegion) (storage : Bytes n) (maxPhysBytes : UInt64)
    (pmm : PmmState n) (h : pmmInitFromMap regions storage maxPhysBytes = some pmm) :
    BootMapSafe regions pmm ↔
      LastPageHarmless regions (maxPhysBytes.toNat / pageSize) ∧
      LastEndsHarmless regions (maxPhysBytes.toNat / pageSize) := by
  have hbooted := pmmInitFromMap_booted h
  rw [← hbooted.frameCount]
  constructor
  · intro hsafe
    constructor
    · rintro ⟨r, hr, husable, hlast⟩ f hne hf
      by_contra hnot
      obtain ⟨houtside, hreserved⟩ := not_or.mp hnot
      have hfree := (hbooted.isFree_iff f).mpr ⟨hf, hne, ⟨r, hr, husable, Or.inr hlast⟩, hreserved⟩
      exact houtside (hsafe f hfree).2.1
    · rintro f hne hf ⟨r, hr, hother, hends, hmeets⟩
      by_contra hnot
      obtain ⟨hreserved, hsome⟩ := not_or.mp hnot
      push Not at hsome
      obtain ⟨u, hu, husable, hfreed⟩ := hsome
      have hby : (u.Contains f ∧ u.base.toNat + u.length.toNat < 2 ^ 64) ∨ u.InLastPage :=
        or_iff_not_imp_right.mpr hfreed
      have hfree := (hbooted.isFree_iff f).mpr ⟨hf, hne, ⟨u, hu, husable, hby⟩, hreserved⟩
      exact (hsafe f hfree).2.2 r hr hother hmeets
  · rintro ⟨hpage, hends⟩ f hfree
    obtain ⟨hf, hne, ⟨u, hu, husable, hby⟩, hreserved⟩ := (hbooted.isFree_iff f).mp hfree
    refine ⟨hne, ?_, fun r hr hother hmeets => ?_⟩
    · rcases hby with ⟨hcontains, -⟩ | hlast
      · exact ⟨u, hu, husable, hcontains⟩
      · exact (hpage ⟨u, hu, husable, hlast⟩ f hne hf).resolve_right hreserved
    · by_cases hlast : r.EndsInLastPage
      · obtain ⟨hnot, hout⟩ :=
          (hends f hne hf ⟨r, hr, hother, hlast, hmeets⟩).resolve_left hreserved u hu husable
        exact hby.elim hout hnot
      · exact hreserved ⟨r, hr, hother, hlast, hmeets⟩

/-- A usable region and a reserved one at the start of the memory. -/
theorem boot_map_safe_iff_two_regions :
    ∃ pmm : PmmState 1, pmmInitFromMap [⟨0, 0x3000, bootMemUsable⟩, ⟨0x2800, 0x800, 2⟩]
      Bytes.zero 0x4000 = some pmm ∧ BootMapSafe [⟨0, 0x3000, bootMemUsable⟩, ⟨0x2800, 0x800, 2⟩]
      pmm ∧ IsFree pmm 1 := by
  obtain ⟨pmm, hinit, hfree⟩ : ∃ pmm : PmmState 1, pmmInitFromMap
      [⟨0, 0x3000, bootMemUsable⟩, ⟨0x2800, 0x800, 2⟩] Bytes.zero 0x4000 = some pmm ∧
      IsFree pmm 1 :=
    ⟨_, rfl, by decide⟩
  have hlow : ∀ r ∈ [(⟨0, 0x3000, bootMemUsable⟩ : BootMemRegion), ⟨0x2800, 0x800, 2⟩],
      ¬ r.EndsInLastPage := by
    unfold EndsInLastPage
    decide
  refine ⟨pmm, hinit, (boot_map_safe_iff _ _ _ pmm hinit).mpr ⟨?_, ?_⟩, hfree⟩
  · rintro ⟨r, hr, -, hlast⟩
    have hends := hlow r hr
    unfold EndsInLastPage at hends
    have := hlast.2.1
    omega
  · rintro f - - ⟨r, hr, -, hends, -⟩
    exact absurd hends (hlow r hr)

/-- A usable region of 1024 bytes in the last page makes the second frame free, which no region
contains. -/
theorem boot_map_frees_memory :
    ∃ pmm : PmmState 1,
      pmmInitFromMap [⟨0xfffffffffffff800, 0x400, bootMemUsable⟩] Bytes.zero 0x2000 = some pmm ∧
      ¬ BootMapSafe [⟨0xfffffffffffff800, 0x400, bootMemUsable⟩] pmm := by
  obtain ⟨pmm, hinit, hfree⟩ : ∃ pmm : PmmState 1, pmmInitFromMap
      [⟨0xfffffffffffff800, 0x400, bootMemUsable⟩] Bytes.zero 0x2000 = some pmm ∧ IsFree pmm 1 :=
    ⟨_, rfl, by decide⟩
  refine ⟨pmm, hinit, fun hsafe => ?_⟩
  obtain ⟨-, ⟨r, hr, -, hcontains⟩, -⟩ := hsafe 1 hfree
  obtain rfl := List.mem_singleton.mp hr
  exact absurd hcontains.1 (by decide)

/-! ## Maps that end before the last page -/

/-- If no region reaches into the last page, then the free frames are those that lie inside of a
usable region and meet no other one, except the first. -/
theorem Booted.isFree_of_low (h : Booted regions maxPhysBytes pmm)
    (hends : ∀ r ∈ regions, r.base.toNat + r.length.toNat ≤ 2 ^ 64 - pageSize) (f : ℕ) :
    IsFree pmm f ↔ f < pmm.frameCount ∧ f ≠ 0 ∧ (∃ r ∈ regions, r.Usable ∧ r.Contains f) ∧
      ∀ r ∈ regions, ¬ r.Usable → ¬ r.Meets f := by
  rw [h.isFree_iff]
  refine and_congr_right fun _ => and_congr_right fun _ => and_congr ?_ ?_
  · refine exists_congr fun r => and_congr_right fun hr => and_congr_right fun _ => ?_
    have hlow := hends r hr
    have hnot : ¬ r.InLastPage := fun hlast => by
      have := hlast.2.1
      omega
    have hfit : r.base.toNat + r.length.toNat < 2 ^ 64 := by
      simp only [pageSize] at hlow
      omega
    simp only [hnot, hfit, and_true, or_false]
  · unfold Reserved
    constructor
    · intro hnot r hr hother hmeets
      exact hnot ⟨r, hr, hother, Nat.not_lt.mpr (hends r hr), hmeets⟩
    · rintro hnot ⟨r, hr, hother, -, hmeets⟩
      exact hnot r hr hother hmeets

/-- The bitmap is determined by the free frames. -/
theorem bitmap_eq_of_free {pmm' : PmmState n} (h : PmmOk pmm) (h' : PmmOk pmm')
    (hcount : pmm'.frameCount = pmm.frameCount) (hfree : ∀ f, IsFree pmm' f ↔ IsFree pmm f) {i : ℕ}
    (hi : i < (pmm.frameCount + 7) / 8) : pmm'.bitmap.byte i = pmm.bitmap.byte i := by
  have hbits : ∀ f < 8 * ((pmm.frameCount + 7) / 8),
      pmm'.bitmap.testBit f = pmm.bitmap.testBit f := by
    intro f hf
    rcases Nat.lt_or_ge f pmm.frameCount with hin | hout
    · have hiff := hfree f
      unfold IsFree at hiff
      simp only [hcount, hin, true_and] at hiff
      exact Bool.eq_iff_iff.mpr (by simpa using not_congr hiff)
    · rw [h.beyond f hout hf, h'.beyond f (hcount.symm ▸ hout) (hcount.symm ▸ hf)]
  rw [← UInt8.toBitVec_inj]
  refine BitVec.eq_of_getLsbD_eq fun k hk => ?_
  have hbit := hbits (8 * i + k) (by omega)
  rw [Bytes.testBit_eq, Bytes.testBit_eq] at hbit
  rwa [show (8 * i + k) / 8 = i by omega, show (8 * i + k) % 8 = k by omega] at hbit

/-- The order of the regions decides nothing about whether a map is accepted. -/
theorem pmmInitFromMap_perm {regions' : List BootMemRegion} (hperm : regions'.Perm regions)
    (h : pmmInitFromMap regions storage maxPhysBytes = some pmm) :
    ∃ pmm', pmmInitFromMap regions' storage maxPhysBytes = some pmm' := by
  unfold pmmInitFromMap at h ⊢
  split_ifs at h with hregions haligned hsize
  rw [if_neg (hperm.length_eq ▸ hregions), if_neg haligned, if_neg hsize]
  exact ⟨_, rfl⟩

/-- **The exact effect of a memory map.**  If no region reaches into the last page of the address
space, then after `pmm_init_from_map` a frame is free exactly if it is not the first one, lies
inside of a usable region and meets no region of another type.  In particular the bitmap and the
number of free frames are the same for every order of the regions. -/
theorem boot_map_exact (regions : List BootMemRegion) (storage : Bytes n) (maxPhysBytes : UInt64)
    (pmm : PmmState n)
    (hends : ∀ r ∈ regions, r.base.toNat + r.length.toNat ≤ 2 ^ 64 - pageSize)
    (h : pmmInitFromMap regions storage maxPhysBytes = some pmm) :
    (∀ f < pmm.frameCount, IsFree pmm f ↔ f ≠ 0 ∧ (∃ r ∈ regions, r.Usable ∧ r.Contains f) ∧
      ∀ r ∈ regions, ¬ r.Usable → ¬ r.Meets f) ∧
    ∀ regions' : List BootMemRegion, regions'.Perm regions →
      ∃ pmm', pmmInitFromMap regions' storage maxPhysBytes = some pmm' ∧
        pmm'.frameCount = pmm.frameCount ∧
        (∀ i < (pmm.frameCount + 7) / 8, pmm'.bitmap.byte i = pmm.bitmap.byte i) ∧
        pmm'.freeFrames = pmm.freeFrames := by
  have hbooted := pmmInitFromMap_booted h
  refine ⟨fun f hf => ?_, fun regions' hperm => ?_⟩
  · rw [hbooted.isFree_of_low hends]
    simp only [hf, true_and]
  obtain ⟨pmm', hinit⟩ := pmmInitFromMap_perm hperm h
  have hbooted' := pmmInitFromMap_booted hinit
  have hcount : pmm'.frameCount = pmm.frameCount :=
    hbooted'.frameCount.trans hbooted.frameCount.symm
  have hfree : ∀ f, IsFree pmm' f ↔ IsFree pmm f := by
    intro f
    rw [hbooted.isFree_of_low hends,
      hbooted'.isFree_of_low fun r hr => hends r (hperm.mem_iff.mp hr), hcount]
    simp only [hperm.mem_iff]
  refine ⟨pmm', hinit, hcount, fun i hi => bitmap_eq_of_free hbooted.ok hbooted'.ok hcount
    hfree hi, ?_⟩
  have hset : freeSet pmm' = freeSet pmm := by
    ext f
    rw [mem_freeSet, mem_freeSet, hfree]
  rw [hbooted'.ok.free, hbooted.ok.free, hset]

/-- Two overlapping usable regions and a reserved one; the second frame is free, the third one is
not, and the map read backwards leaves as many frames free. -/
theorem boot_map_exact_three_regions :
    ∃ pmm : PmmState 1, pmmInitFromMap
      [⟨0, 0x2800, bootMemUsable⟩, ⟨0x2400, 0x100, 2⟩, ⟨0x1000, 0x3000, bootMemUsable⟩]
      Bytes.zero 0x4000 = some pmm ∧ pmm.freeFrames = 2 ∧ IsFree pmm 1 ∧ ¬ IsFree pmm 2 ∧
      ∃ pmm' : PmmState 1, pmmInitFromMap
        [⟨0x1000, 0x3000, bootMemUsable⟩, ⟨0x2400, 0x100, 2⟩, ⟨0, 0x2800, bootMemUsable⟩]
        Bytes.zero 0x4000 = some pmm' ∧ pmm'.freeFrames = 2 := by
  obtain ⟨pmm, hinit, hcount, hfirst, hsecond⟩ : ∃ pmm : PmmState 1, pmmInitFromMap
      [⟨0, 0x2800, bootMemUsable⟩, ⟨0x2400, 0x100, 2⟩, ⟨0x1000, 0x3000, bootMemUsable⟩]
      Bytes.zero 0x4000 = some pmm ∧ pmm.freeFrames = 2 ∧ IsFree pmm 1 ∧ ¬ IsFree pmm 2 :=
    ⟨_, rfl, by decide, by decide, by decide⟩
  have hends : ∀ r ∈ [(⟨0, 0x2800, bootMemUsable⟩ : BootMemRegion), ⟨0x2400, 0x100, 2⟩,
      ⟨0x1000, 0x3000, bootMemUsable⟩], r.base.toNat + r.length.toNat ≤ 2 ^ 64 - pageSize := by
    decide
  obtain ⟨pmm', hinit', -, -, hsame⟩ :=
    (boot_map_exact _ _ _ pmm hends hinit).2 _ (List.reverse_perm _)
  exact ⟨pmm, hinit, hcount, hfirst, hsecond, pmm', hinit', hsame.trans hcount⟩

end Mcsos.Pmm
