import Mcsos.Pmm.BootMap
import Mcsos.Pmm.Protection

/-!
# Reservations that are reported but not made

`pmm_reserve_range` answers `true` for every range that is not empty.  The helper it calls gives up
without a word if the end of the range does not fit into 64 bits, or if rounding the end up to a
page wraps around: the frames of such a range stay free.  `reservation_real_iff` says that the
answer can be relied on for all other ranges, and for those with no free frame.

The counter of reserved frames is never lowered, so it can wrap around as well, which is part of the
condition.
-/

namespace Mcsos.Pmm

open Bytes

variable {n : ℕ} {boot pmm pmm' : PmmState n} {base length f g : ℕ}

/-- The page of frame `f` has an address in the range. -/
def Intersects (base length f : ℕ) : Prop :=
  ∃ addr, (base ≤ addr ∧ addr < base + length) ∧
    (f * pageSize ≤ addr ∧ addr < f * pageSize + pageSize)

theorem intersects_iff : Intersects base length f ↔
    0 < length ∧ base < f * pageSize + pageSize ∧ f * pageSize < base + length := by
  constructor
  · rintro ⟨addr, hrange, hpage⟩
    omega
  · rintro ⟨hpos, hlow, hhigh⟩
    refine ⟨max base (f * pageSize), ?_, ?_⟩
    · omega
    · simp only [pageSize] at hlow hhigh ⊢
      omega

instance (base length f : ℕ) : Decidable (Intersects base length f) :=
  decidable_of_iff _ intersects_iff.symm

/-- The free frames that a range asks for. -/
def wanted (pmm : PmmState n) (base length : ℕ) : Finset ℕ :=
  (freeSet pmm).filter (Intersects base length)

/-- If `pmm_reserve_range` answers `true`, then the frames of the range are in use, the counters
have moved by the number of those that were free, and all other frames are as before. -/
def ReservationReal (pmm : PmmState n) (base length : ℕ) : Prop :=
  ∀ pmm', pmmReserveRange pmm base length = (true, pmm') →
    (∀ f, f * pageSize < pmm.maxPhys → Intersects base length f → ¬ IsFree pmm' f) ∧
    pmm'.freeFrames + (wanted pmm base length).card = pmm.freeFrames ∧
    pmm'.reservedFrames = pmm.reservedFrames + (wanted pmm base length).card ∧
    ∀ f, ¬ Intersects base length f → (IsFree pmm' f ↔ IsFree pmm f)

/-- The range asks for no free frame; or it ends before the last page of the address space, and the
counter of reserved frames does not overflow. -/
def ReservationHonest (pmm : PmmState n) (base length : ℕ) : Prop :=
  wanted pmm base length = ∅ ∨
    (base + length ≤ 2 ^ 64 - pageSize ∧
      pmm.reservedFrames + (wanted pmm base length).card < 2 ^ 64)

theorem mem_wanted : f ∈ wanted pmm base length ↔ IsFree pmm f ∧ Intersects base length f := by
  rw [wanted, Finset.mem_filter, mem_freeSet]

/-! ## The counters -/

/-- The counter after `k` more frames. -/
def countReserved (reserved k : ℕ) : ℕ := if k = 0 then reserved else (reserved + k) % 2 ^ 64

theorem countReserved_add (reserved j k : ℕ) :
    countReserved (countReserved reserved j) k = countReserved reserved (j + k) := by
  unfold countReserved
  rcases Nat.eq_zero_or_pos j with rfl | hj
  · simp
  rcases Nat.eq_zero_or_pos k with rfl | hk
  · simp
  · rw [if_neg (by omega), if_neg (by omega), if_neg (by omega), Nat.mod_add_mod, Nat.add_assoc]

/-- `k` frames were free and are reserved now. -/
structure Counts (pmm pmm' : PmmState n) (k : ℕ) : Prop where
  free : pmm'.freeFrames + k = pmm.freeFrames
  reserved : pmm'.reservedFrames = countReserved pmm.reservedFrames k

theorem counts_self (pmm : PmmState n) : Counts pmm pmm 0 := ⟨rfl, rfl⟩

theorem reserveFrame_counts (h : PmmOk pmm) (hg : g < pmm.frameCount) :
    ∃ k, Counts pmm (reserveFrame pmm g) k := by
  rcases reserveFrame_cases h hg with ⟨hfree, heq⟩ | ⟨-, heq⟩
  · rw [heq]
    exact ⟨1, Nat.sub_add_cancel (h.free_pos hfree), rfl⟩
  · rw [heq]
    exact ⟨0, counts_self pmm⟩

theorem foldl_reserveFrame_counts (h : PmmOk pmm) {l : List ℕ} (hl : ∀ f ∈ l, f < pmm.frameCount) :
    ∃ k, Counts pmm (l.foldl reserveFrame pmm) k := by
  induction l generalizing pmm with
  | nil => exact ⟨0, counts_self pmm⟩
  | cons g l ih =>
    have hg := hl g List.mem_cons_self
    have hleads := reserveFrame_leads h hg
    obtain ⟨j, hfirst⟩ := reserveFrame_counts h hg
    obtain ⟨k, hrest⟩ := ih hleads.ok fun f hf => by
      rw [hleads.frameCount]
      exact hl f (List.mem_cons_of_mem g hf)
    refine ⟨j + k, ?_, ?_⟩
    · rw [← hfirst.free, ← hrest.free, List.foldl_cons]
      omega
    · rw [List.foldl_cons, hrest.reserved, hfirst.reserved, countReserved_add]

theorem markRangeUsed_counts (h : PmmOk pmm) (hbase : base < 2 ^ 64) (length : ℕ) :
    ∃ k, Counts pmm (markRangeUsed pmm base length) k := by
  obtain ⟨l, heq, hl⟩ := markRangeUsed_eq h hbase length
  rw [heq]
  exact foldl_reserveFrame_counts h fun f hf => ((hl f).mp hf).1

/-! ## The range -/

/-- A frame of the range is reserved, unless the range ends in the last page. -/
theorem reservedBy_iff_intersects (hbase : base < 2 ^ 64) (hlength : length < 2 ^ 64) :
    ReservedBy base length f ↔ base + length ≤ 2 ^ 64 - pageSize ∧ Intersects base length f := by
  have hiff := reservedBy_iff
    (r := ⟨UInt64.ofNat base, UInt64.ofNat length, bootMemUsable⟩) (f := f)
  unfold BootMemRegion.EndsInLastPage BootMemRegion.Meets at hiff
  simp only [UInt64.toNat_ofNat_of_lt' hbase, UInt64.toNat_ofNat_of_lt' hlength,
    Nat.not_lt] at hiff
  exact hiff

/-- The frames asked for are counted, if all of them are reserved. -/
theorem card_wanted (hleads : Leads pmm pmm' fun f => IsFree pmm f ∧ ¬ Intersects base length f) :
    (freeSet pmm').card + (wanted pmm base length).card = (freeSet pmm).card := by
  have hrest : freeSet pmm' = (freeSet pmm).filter fun f => ¬ Intersects base length f := by
    ext f
    rw [mem_freeSet, hleads.free, Finset.mem_filter, mem_freeSet]
    exact ⟨fun hf => hf.2, fun hf => ⟨hf.1.lt, hf⟩⟩
  rw [hrest, wanted, Nat.add_comm, Finset.card_filter_add_card_filter_not]

theorem pmmReserveRange_eq_true (h : pmmReserveRange pmm base length = (true, pmm')) :
    0 < length ∧ pmm' = markRangeUsed pmm base length := by
  unfold pmmReserveRange at h
  split_ifs at h with hrefused
  · cases h
  · cases h
    rw [Bool.or_eq_true, not_or, beq_iff_eq] at hrefused
    exact ⟨Nat.pos_of_ne_zero hrefused.2, rfl⟩

theorem pmmReserveRange_of_pos (hinit : pmm.initialized = true) (hpos : 0 < length) :
    pmmReserveRange pmm base length = (true, markRangeUsed pmm base length) := by
  unfold pmmReserveRange
  rw [hinit, if_neg]
  simpa using Nat.ne_of_gt hpos

/-- A range with no free frame changes no frame and no counter. -/
theorem ReservationReal.of_none (h : PmmOk pmm) (hbase : base < 2 ^ 64) (hlength : length < 2 ^ 64)
    (hnone : wanted pmm base length = ∅) : ReservationReal pmm base length := by
  intro pmm' hcall
  obtain ⟨-, rfl⟩ := pmmReserveRange_eq_true hcall
  have hout : ∀ f, IsFree pmm f → ¬ Intersects base length f := by
    intro f hf hmeets
    have hmem := mem_wanted.mpr ⟨hf, hmeets⟩
    rw [hnone] at hmem
    exact Finset.notMem_empty f hmem
  have hleads : Leads pmm (markRangeUsed pmm base length) (IsFree pmm) :=
    (markRangeUsed_leads h hbase).congr fun f _ => ⟨fun hf => hf.1, fun hf => ⟨hf, fun hby =>
      hout f hf ((reservedBy_iff_intersects hbase hlength).mp hby).2⟩⟩
  have hsame : ∀ f, IsFree (markRangeUsed pmm base length) f ↔ IsFree pmm f := fun f =>
    (hleads.free f).trans ⟨fun hf => hf.2, fun hf => ⟨hf.lt, hf⟩⟩
  obtain ⟨k, hcounts⟩ := markRangeUsed_counts h hbase length
  have hzero : k = 0 := by
    have hset : freeSet (markRangeUsed pmm base length) = freeSet pmm := by
      ext f
      rw [mem_freeSet, mem_freeSet, hsame]
    have hfree := hcounts.free
    rw [hleads.ok.free, h.free, hset] at hfree
    omega
  subst hzero
  rw [hnone, Finset.card_empty]
  exact ⟨fun f _ hmeets hf => hout f ((hsame f).mp hf) hmeets, hcounts.free, hcounts.reserved,
    fun f _ => hsame f⟩

/-- For a range that ends before the last page, the frames and the counter of free frames are right
in any case, and the counter of reserved frames moves by the number of frames, modulo 2^64. -/
theorem markRangeUsed_of_low (h : PmmOk pmm) (hbase : base < 2 ^ 64) (hlength : length < 2 ^ 64)
    (hlow : base + length ≤ 2 ^ 64 - pageSize) :
    Leads pmm (markRangeUsed pmm base length) (fun f => IsFree pmm f ∧ ¬ Intersects base length f) ∧
      Counts pmm (markRangeUsed pmm base length) (wanted pmm base length).card := by
  have hleads : Leads pmm (markRangeUsed pmm base length)
      fun f => IsFree pmm f ∧ ¬ Intersects base length f :=
    (markRangeUsed_leads h hbase).congr fun f _ => by
      simp only [reservedBy_iff_intersects hbase hlength, hlow, true_and]
  obtain ⟨k, hcounts⟩ := markRangeUsed_counts h hbase length
  have hcard : k = (wanted pmm base length).card := by
    have hfree := hcounts.free
    have hwanted := card_wanted hleads
    rw [hleads.ok.free, h.free] at hfree
    omega
  exact ⟨hleads, hcard ▸ hcounts⟩

theorem ReservationReal.iff_honest (h : PmmOk pmm) (hinit : pmm.initialized = true)
    (hbase : base < 2 ^ 64) (hlength : length < 2 ^ 64) :
    ReservationReal pmm base length ↔ ReservationHonest pmm base length := by
  constructor
  · intro hreal
    by_cases hnone : wanted pmm base length = ∅
    · exact Or.inl hnone
    refine Or.inr ?_
    obtain ⟨f, hf⟩ := Finset.nonempty_iff_ne_empty.mpr hnone
    obtain ⟨hfree, hmeets⟩ := mem_wanted.mp hf
    have hcall : pmmReserveRange pmm base length = (true, markRangeUsed pmm base length) :=
      pmmReserveRange_of_pos hinit (intersects_iff.mp hmeets).1
    obtain ⟨hused, -, hreserved, -⟩ := hreal _ hcall
    have hin : f * pageSize < pmm.maxPhys := by
      rw [h.maxPhys]
      exact page_lt.mpr hfree.lt
    have hlow : base + length ≤ 2 ^ 64 - pageSize := by
      by_contra hlast
      -- the helper did nothing
      have hleads : Leads pmm (markRangeUsed pmm base length) _ := markRangeUsed_leads h hbase
      have hkept := hleads.free f
      simp only [reservedBy_iff_intersects hbase hlength, hlast, false_and, not_false_eq_true,
        and_true] at hkept
      exact hused f hin hmeets (hkept.mpr ⟨hfree.lt, hfree⟩)
    refine ⟨hlow, ?_⟩
    have hcount := (markRangeUsed_of_low h hbase hlength hlow).2.reserved
    rw [hreserved, countReserved, if_neg (Finset.card_ne_zero_of_mem hf)] at hcount
    rw [hcount]
    exact Nat.mod_lt _ (by decide)
  · rintro (hnone | ⟨hlow, hroom⟩)
    · exact ReservationReal.of_none h hbase hlength hnone
    intro pmm' hcall
    obtain ⟨-, rfl⟩ := pmmReserveRange_eq_true hcall
    obtain ⟨hleads, hcounts⟩ := markRangeUsed_of_low h hbase hlength hlow
    refine ⟨fun f _ hmeets hf => ((hleads.free f).mp hf).2.2 hmeets, hcounts.free, ?_,
      fun f hout => ?_⟩
    · rw [hcounts.reserved, countReserved]
      split_ifs with hzero
      · rw [hzero, Nat.add_zero]
      · exact Nat.mod_eq_of_lt hroom
    · rw [hleads.free]
      exact ⟨fun hf => hf.2.1, fun hf => ⟨hf.lt, hf, hout⟩⟩

/-- **Reservations.**  In every state of every run, and for every range, what `pmm_reserve_range`
reports is what it did exactly if the range asks for no free frame, or ends before the last page
of the address space and does not overflow the counter. -/
theorem reservation_real_iff (regions : List BootMemRegion) (storage : Bytes n)
    (maxPhysBytes : UInt64) (boot : PmmState n)
    (hinit : pmmInitFromMap regions storage maxPhysBytes = some boot) (ops : List Op)
    (base length : UInt64) :
    ReservationReal (ops.foldl (fun pmm o => o.step pmm) boot) base.toNat length.toNat ↔
      ReservationHonest (ops.foldl (fun pmm o => o.step pmm) boot) base.toNat length.toNat := by
  have hbooted := pmmInitFromMap_booted hinit
  have hlater : Later boot (ops.foldl (fun pmm o => o.step pmm) boot) :=
    (AllStates.of_step (fun o _ h => h.step o) ⟨hbooted.ok, rfl, rfl, hbooted.initialized⟩).last
  exact ReservationReal.iff_honest hlater.ok hlater.initialized base.toNat_lt length.toNat_lt

/-- The third of four frames, after an allocation. -/
theorem reservation_real_iff_page :
    ∃ boot : PmmState 1, pmmInitFromMap [⟨0, 0x4000, bootMemUsable⟩] Bytes.zero 0x4000 = some boot ∧
      ReservationReal ([Op.alloc].foldl (fun pmm o => o.step pmm) boot) 0x2800 0x10 := by
  obtain ⟨boot, hinit, hhonest⟩ : ∃ boot : PmmState 1,
      pmmInitFromMap [⟨0, 0x4000, bootMemUsable⟩] Bytes.zero 0x4000 = some boot ∧
      (0x2800 + 0x10 ≤ 2 ^ 64 - pageSize ∧
        ([Op.alloc].foldl (fun pmm o => o.step pmm) boot).reservedFrames +
          (wanted ([Op.alloc].foldl (fun pmm o => o.step pmm) boot) 0x2800 0x10).card < 2 ^ 64) :=
    ⟨_, rfl, by decide⟩
  exact ⟨boot, hinit, (reservation_real_iff _ _ _ boot hinit _ 0x2800 0x10).mpr (Or.inr hhonest)⟩

/-- A range from the second frame to the end of the address space: the answer is `true`, and the
frame is still free. -/
theorem reservation_not_made :
    ∃ boot : PmmState 1, pmmInitFromMap [⟨0, 0x4000, bootMemUsable⟩] Bytes.zero 0x4000 = some boot ∧
      (pmmReserveRange boot 0x1000 0xffffffffffffefff).1 = true ∧
      ¬ ReservationReal boot 0x1000 0xffffffffffffefff := by
  obtain ⟨boot, hinit, hcall, hmeets, hin, hfree⟩ : ∃ boot : PmmState 1,
      pmmInitFromMap [⟨0, 0x4000, bootMemUsable⟩] Bytes.zero 0x4000 = some boot ∧
      (pmmReserveRange boot 0x1000 0xffffffffffffefff).1 = true ∧
      Intersects 0x1000 0xffffffffffffefff 1 ∧ 1 * pageSize < boot.maxPhys ∧
      IsFree (pmmReserveRange boot 0x1000 0xffffffffffffefff).2 1 :=
    ⟨_, rfl, by decide, by decide, by decide, by decide⟩
  exact ⟨boot, hinit, hcall, fun hreal => (hreal _ (Prod.ext hcall rfl)).1 1 hin hmeets hfree⟩

end Mcsos.Pmm
