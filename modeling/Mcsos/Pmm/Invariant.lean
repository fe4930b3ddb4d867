import Mcsos.Pmm.Frames
import Mathlib.Data.Finset.Card
import Mathlib.Data.List.Find

/-!
# What the bitmap and the counters say

Every operation on frames is described by the set of frames that are free after it:
`Leads pmm pmm' F` says that `pmm'` is a consistent state of the same memory in which exactly the
frames in `F` are free.  Single frames come first, then the loops over a range, then the calls.
-/

namespace Mcsos.Pmm

open Bytes

variable {n : ℕ} {pmm pmm' pmm'' : PmmState n} {f g : ℕ}

/-- Frame `f` is free. -/
def IsFree (pmm : PmmState n) (f : ℕ) : Prop := f < pmm.frameCount ∧ pmm.bitmap.testBit f = false

instance (pmm : PmmState n) (f : ℕ) : Decidable (IsFree pmm f) :=
  inferInstanceAs (Decidable (_ ∧ _))

/-- The clear bits of the bitmap among the frames. -/
def freeSet (pmm : PmmState n) : Finset ℕ := (Finset.range pmm.frameCount).filter (IsFree pmm)

/-- A consistent state: the bitmap covers the memory, the counters count its bits, the bits behind
the last frame are set, and the search starts inside. -/
structure PmmOk (pmm : PmmState n) : Prop where
  size : (pmm.frameCount + 7) / 8 ≤ n
  maxPhys : pmm.maxPhys = pmm.frameCount * pageSize
  free : pmm.freeFrames = (freeSet pmm).card
  used : pmm.usedFrames + pmm.freeFrames = pmm.frameCount
  beyond :
    ∀ f, pmm.frameCount ≤ f → f < 8 * ((pmm.frameCount + 7) / 8) → pmm.bitmap.testBit f = true
  hint : pmm.nextHint ≤ pmm.frameCount

/-- `pmm'` is a consistent state of the same memory, in which the frames in `F` are free. -/
structure Leads (pmm pmm' : PmmState n) (F : ℕ → Prop) : Prop where
  ok : PmmOk pmm'
  maxPhys : pmm'.maxPhys = pmm.maxPhys
  frameCount : pmm'.frameCount = pmm.frameCount
  initialized : pmm'.initialized = pmm.initialized
  free : ∀ f, IsFree pmm' f ↔ f < pmm.frameCount ∧ F f

theorem mem_freeSet : f ∈ freeSet pmm ↔ IsFree pmm f := by
  rw [freeSet, Finset.mem_filter, Finset.mem_range]
  exact ⟨fun h => h.2, fun h => ⟨h.1, h⟩⟩

theorem IsFree.lt (h : IsFree pmm f) : f < pmm.frameCount := h.1

theorem PmmOk.byte_lt (h : PmmOk pmm) (hf : f < pmm.frameCount) : f / 8 < n := by
  have := h.size
  omega

theorem leads_self (h : PmmOk pmm) : Leads pmm pmm (IsFree pmm) :=
  ⟨h, rfl, rfl, rfl, fun _ => ⟨fun hf => ⟨hf.1, hf⟩, fun hf => hf.2⟩⟩

theorem Leads.congr {F G : ℕ → Prop} (h : Leads pmm pmm' F)
    (hFG : ∀ f < pmm.frameCount, F f ↔ G f) : Leads pmm pmm' G :=
  ⟨h.ok, h.maxPhys, h.frameCount, h.initialized, fun f => by
    rw [h.free]
    exact and_congr_right (hFG f)⟩

theorem Leads.trans {F G : ℕ → Prop} (h : Leads pmm pmm' F) (h' : Leads pmm' pmm'' G) :
    Leads pmm pmm'' G :=
  ⟨h'.ok, h'.maxPhys.trans h.maxPhys, h'.frameCount.trans h.frameCount,
    h'.initialized.trans h.initialized, fun f => by rw [h'.free, h.frameCount]⟩

/-! ## Single frames -/

/-- A frame in use is counted as used. -/
theorem PmmOk.used_pos (h : PmmOk pmm) (hg : g < pmm.frameCount) (hused : ¬ IsFree pmm g) :
    0 < pmm.usedFrames := by
  have hlt : (freeSet pmm).card < (Finset.range pmm.frameCount).card := by
    apply Finset.card_lt_card
    refine Finset.ssubset_iff_of_subset (Finset.filter_subset _ _) |>.mpr ?_
    exact ⟨g, Finset.mem_range.mpr hg, fun hmem => hused (mem_freeSet.mp hmem)⟩
  have hcount := h.used
  rw [Finset.card_range, ← h.free] at hlt
  omega

/-- A free frame is counted as free. -/
theorem PmmOk.free_pos (h : PmmOk pmm) (hg : IsFree pmm g) : 0 < pmm.freeFrames := by
  rw [h.free]
  exact Finset.card_pos.mpr ⟨g, mem_freeSet.mpr hg⟩

/-- The state after the bit of `g` was cleared, with any hint inside the memory. -/
theorem clear_leads (h : PmmOk pmm) (hg : g < pmm.frameCount) (hused : ¬ IsFree pmm g) {hint : ℕ}
    (hhint : hint ≤ pmm.frameCount) :
    Leads pmm { pmm with
      bitmap := pmm.bitmap.clearBit g
      freeFrames := pmm.freeFrames + 1
      usedFrames := pmm.usedFrames - 1
      nextHint := hint } fun f => IsFree pmm f ∨ f = g := by
  have hbit : ∀ f, (pmm.bitmap.clearBit g).testBit f = (decide (g ≠ f) && pmm.bitmap.testBit f) :=
    fun f => testBit_clearBit _ f (h.byte_lt hg)
  have hfree : ∀ f, f < pmm.frameCount ∧ (pmm.bitmap.clearBit g).testBit f = false ↔
      f < pmm.frameCount ∧ (IsFree pmm f ∨ f = g) := by
    intro f
    by_cases hfg : f = g
    · subst hfg
      simp [hbit]
    · simp [IsFree, hbit, hfg, Ne.symm hfg]
  have hpos := h.used_pos hg hused
  have hcount := h.used
  refine ⟨⟨h.size, h.maxPhys, ?_, ?_, fun f hlow hhigh => ?_, hhint⟩, rfl, rfl, rfl, hfree⟩
  · show pmm.freeFrames + 1 = _
    rw [h.free, ← Finset.card_insert_of_notMem fun hmem => hused (mem_freeSet.mp hmem)]
    congr 1
    ext f
    rw [Finset.mem_insert, mem_freeSet, mem_freeSet]
    refine Iff.trans ?_ (hfree f).symm
    constructor
    · rintro (rfl | hf)
      · exact ⟨hg, Or.inr rfl⟩
      · exact ⟨hf.lt, Or.inl hf⟩
    · rintro ⟨-, hf | rfl⟩
      · exact Or.inr hf
      · exact Or.inl rfl
  · show pmm.usedFrames - 1 + (pmm.freeFrames + 1) = pmm.frameCount
    omega
  · show (pmm.bitmap.clearBit g).testBit f = true
    have hlow' : pmm.frameCount ≤ f := hlow
    rw [hbit, h.beyond f hlow hhigh, decide_eq_true (by omega), Bool.true_and]

/-- The state after the bit of `g` was set, with any hint inside the memory. -/
theorem set_leads (h : PmmOk pmm) (hg : IsFree pmm g) {hint reserved : ℕ}
    (hhint : hint ≤ pmm.frameCount) :
    Leads pmm { pmm with
      bitmap := pmm.bitmap.setBit g
      freeFrames := pmm.freeFrames - 1
      usedFrames := pmm.usedFrames + 1
      reservedFrames := reserved
      nextHint := hint } fun f => IsFree pmm f ∧ f ≠ g := by
  have hbit : ∀ f, (pmm.bitmap.setBit g).testBit f = (decide (g = f) || pmm.bitmap.testBit f) :=
    fun f => testBit_setBit _ f (h.byte_lt hg.lt)
  have hfree : ∀ f, f < pmm.frameCount ∧ (pmm.bitmap.setBit g).testBit f = false ↔
      f < pmm.frameCount ∧ (IsFree pmm f ∧ f ≠ g) := by
    intro f
    by_cases hfg : f = g
    · subst hfg
      simp [hbit]
    · simp [IsFree, hbit, hfg, Ne.symm hfg]
  have hpos := h.free_pos hg
  have hcount := h.used
  refine ⟨⟨h.size, h.maxPhys, ?_, ?_, fun f hlow hhigh => ?_, hhint⟩, rfl, rfl, rfl, hfree⟩
  · show pmm.freeFrames - 1 = _
    rw [h.free, ← Finset.card_erase_of_mem (mem_freeSet.mpr hg)]
    congr 1
    ext f
    rw [Finset.mem_erase, mem_freeSet, mem_freeSet]
    refine Iff.trans ?_ (hfree f).symm
    constructor
    · rintro ⟨hne, hf⟩
      exact ⟨hf.lt, hf, hne⟩
    · rintro ⟨-, hf, hne⟩
      exact ⟨hne, hf⟩
  · show pmm.usedFrames + 1 + (pmm.freeFrames - 1) = pmm.frameCount
    omega
  · show (pmm.bitmap.setBit g).testBit f = true
    rw [hbit, h.beyond f hlow hhigh, Bool.or_true]

theorem markFrameFree_leads (h : PmmOk pmm) (g : ℕ) :
    Leads pmm (markFrameFree pmm g) fun f => IsFree pmm f ∨ f = g := by
  by_cases hg : g < pmm.frameCount
  · by_cases hused : pmm.bitmap.testBit g = true
    · have hnot : ¬ IsFree pmm g := fun hfree => by simp [hfree.2] at hused
      unfold markFrameFree
      rw [if_neg (Nat.not_le.mpr hg), if_pos hused, if_pos (h.used_pos hg hnot)]
      apply clear_leads h hg hnot
      have := h.hint
      split_ifs <;> omega
    · have hfree : IsFree pmm g := ⟨hg, Bool.not_eq_true _ ▸ hused⟩
      unfold markFrameFree
      rw [if_neg (Nat.not_le.mpr hg), if_neg hused]
      refine (leads_self h).congr fun f _ => ⟨Or.inl, ?_⟩
      rintro (hf | rfl)
      · exact hf
      · exact hfree
  · unfold markFrameFree
    rw [if_pos (Nat.not_lt.mp hg)]
    refine (leads_self h).congr fun f hf => ⟨Or.inl, ?_⟩
    rintro (hf' | rfl)
    · exact hf'
    · exact absurd hf hg

/-- A free frame is marked. -/
theorem markFrameUsed_eq (h : PmmOk pmm) (hg : IsFree pmm g) :
    markFrameUsed pmm g = { pmm with
      bitmap := pmm.bitmap.setBit g
      freeFrames := pmm.freeFrames - 1
      usedFrames := pmm.usedFrames + 1 } := by
  unfold markFrameUsed
  rw [if_neg (Nat.not_le.mpr hg.lt), hg.2, Bool.not_false, if_pos rfl, if_pos (h.free_pos hg)]

/-- A frame is reserved if it is free; otherwise nothing changes. -/
theorem reserveFrame_cases (h : PmmOk pmm) (hg : g < pmm.frameCount) :
    IsFree pmm g ∧ reserveFrame pmm g =
      { pmm with
        bitmap := pmm.bitmap.setBit g
        freeFrames := pmm.freeFrames - 1
        usedFrames := pmm.usedFrames + 1
        reservedFrames := (pmm.reservedFrames + 1) % 2 ^ 64 } ∨
    ¬ IsFree pmm g ∧ reserveFrame pmm g = pmm := by
  unfold reserveFrame
  by_cases hfree : IsFree pmm g
  · refine Or.inl ⟨hfree, ?_⟩
    simp only [hfree.2, Bool.not_false, if_true, markFrameUsed_eq h hfree]
  · have hused : pmm.bitmap.testBit g = true := by
      by_contra hclear
      exact hfree ⟨hg, Bool.not_eq_true _ ▸ hclear⟩
    have hsame : markFrameUsed pmm g = pmm := by
      unfold markFrameUsed
      rw [if_neg (Nat.not_le.mpr hg), hused]
      rfl
    refine Or.inr ⟨hfree, ?_⟩
    simp only [hused, Bool.not_true, hsame, Bool.false_eq_true, if_false]

theorem reserveFrame_leads (h : PmmOk pmm) (hg : g < pmm.frameCount) :
    Leads pmm (reserveFrame pmm g) fun f => IsFree pmm f ∧ f ≠ g := by
  rcases reserveFrame_cases h hg with ⟨hfree, heq⟩ | ⟨hused, heq⟩
  · rw [heq]
    exact set_leads h hfree h.hint
  · rw [heq]
    refine (leads_self h).congr fun f _ => ⟨fun hf => ⟨hf, ?_⟩, fun hf => hf.1⟩
    rintro rfl
    exact hused hf

/-! ## Ranges -/

theorem foldl_markFrameFree_leads (h : PmmOk pmm) (l : List ℕ) :
    Leads pmm (l.foldl markFrameFree pmm) fun f => IsFree pmm f ∨ f ∈ l := by
  induction l generalizing pmm with
  | nil => exact (leads_self h).congr fun f _ => by simp
  | cons g l ih =>
      have hhead := markFrameFree_leads h g
      refine (hhead.trans (ih hhead.ok)).congr fun f hf => ?_
      rw [hhead.free, List.mem_cons]
      simp [hf, or_assoc]

theorem foldl_reserveFrame_leads (h : PmmOk pmm) {l : List ℕ} (hl : ∀ f ∈ l, f < pmm.frameCount) :
    Leads pmm (l.foldl reserveFrame pmm) fun f => IsFree pmm f ∧ f ∉ l := by
  induction l generalizing pmm with
  | nil => exact (leads_self h).congr fun f _ => by simp
  | cons g l ih =>
      have hhead := reserveFrame_leads h (hl g List.mem_cons_self)
      have htail := ih hhead.ok fun f hf => by
        rw [hhead.frameCount]
        exact hl f (List.mem_cons_of_mem g hf)
      refine (hhead.trans htail).congr fun f hf => ?_
      rw [hhead.free, List.mem_cons]
      simp [hf, and_assoc]

/-- The frames that `mark_range_free` frees. -/
def FreedBy (base length f : ℕ) : Prop :=
  0 < length ∧ base + length < 2 ^ 64 ∧ alignUp base pageSize ≤ f * pageSize ∧
    f * pageSize < alignDown (base + length) pageSize

/-- The frames that `mark_range_used` reserves. -/
def ReservedBy (base length f : ℕ) : Prop :=
  0 < length ∧ base + length < 2 ^ 64 ∧ alignDown base pageSize ≤ f * pageSize ∧
    f * pageSize < alignUp (base + length) pageSize

/-- A rounded address is a multiple of the page size. -/
theorem exists_alignDown {v : ℕ} (hv : v < 2 ^ 64) : ∃ a, alignDown v pageSize = a * pageSize :=
  ⟨_, alignDown_eq hv⟩

theorem exists_alignUp {v : ℕ} (hv : v < 2 ^ 64) : ∃ a, alignUp v pageSize = a * pageSize := by
  rcases Nat.lt_or_ge (2 ^ 64 - pageSize) v with hlarge | hsmall
  · exact ⟨0, by rw [alignUp_wrap hlarge hv, Nat.zero_mul]⟩
  · exact ⟨_, alignUp_eq hsmall⟩

theorem page_le {a b : ℕ} : a * pageSize ≤ b * pageSize ↔ a ≤ b :=
  Nat.mul_le_mul_right_iff (by decide)

theorem page_lt {a b : ℕ} : a * pageSize < b * pageSize ↔ a < b :=
  Nat.mul_lt_mul_right (by decide)

/-- The counter of ignored frames has no meaning for the rest. -/
theorem leads_ignored (h : PmmOk pmm) (k : ℕ) :
    Leads pmm { pmm with ignoredFrames := k } (IsFree pmm) :=
  ⟨⟨h.size, h.maxPhys, h.free, h.used, h.beyond, h.hint⟩, rfl, rfl, rfl, (leads_self h).free⟩

/-- The frames of the range are freed one by one. -/
theorem markRangeFree_eq (h : PmmOk pmm) {base : ℕ} (hbase : base < 2 ^ 64) (length : ℕ) :
    ∃ (ignored : ℕ) (l : List ℕ),
      markRangeFree pmm base length = l.foldl markFrameFree { pmm with ignoredFrames := ignored } ∧
        ∀ f < pmm.frameCount, f ∈ l ↔ FreedBy base length f := by
  have hnone : (∀ f < pmm.frameCount, ¬ FreedBy base length f) → ∃ (ignored : ℕ) (l : List ℕ),
      pmm = l.foldl markFrameFree { pmm with ignoredFrames := ignored } ∧
        ∀ f < pmm.frameCount, f ∈ l ↔ FreedBy base length f := fun hby =>
    ⟨pmm.ignoredFrames, [], rfl, fun f hf => iff_of_false List.not_mem_nil (hby f hf)⟩
  unfold markRangeFree
  by_cases hzero : length = 0
  · rw [if_pos hzero]
    exact hnone fun f _ hby => absurd hby.1 (by omega)
  rw [if_neg hzero, checkedAdd_eq hbase]
  by_cases hfit : base + length < 2 ^ 64
  · rw [if_pos hfit]
    obtain ⟨a, ha⟩ := exists_alignUp hbase
    obtain ⟨b, hb⟩ := exists_alignDown hfit
    have hby : ∀ f, FreedBy base length f ↔ a ≤ f ∧ f < b := by
      intro f
      simp only [FreedBy, ha, hb, page_le, page_lt, hfit, Nat.pos_of_ne_zero hzero, true_and]
    have hbelow : pmm.maxPhys ≤ a * pageSize ↔ pmm.frameCount ≤ a := by rw [h.maxPhys, page_le]
    have hclip : pmm.maxPhys < b * pageSize ↔ pmm.frameCount < b := by rw [h.maxPhys, page_lt]
    simp only [ha, hb, page_le, hbelow, hclip]
    split_ifs with hempty habove hclipped
    · exact hnone fun f _ hf => by
        rw [hby] at hf
        omega
    · exact hnone fun f _ hf => by
        rw [hby] at hf
        omega
    · refine ⟨_, _, rfl, fun f hf => ?_⟩
      rw [h.maxPhys, mem_framesBetween, hby]
      omega
    · refine ⟨pmm.ignoredFrames, _, rfl, fun f hf => ?_⟩
      rw [mem_framesBetween, hby]
  · rw [if_neg hfit]
    exact hnone fun f _ hby => hfit hby.2.1

theorem markRangeFree_leads (h : PmmOk pmm) {base length : ℕ} (hbase : base < 2 ^ 64) :
    Leads pmm (markRangeFree pmm base length) fun f => IsFree pmm f ∨ FreedBy base length f := by
  obtain ⟨ignored, l, heq, hl⟩ := markRangeFree_eq h hbase length
  have hignored := leads_ignored h ignored
  rw [heq]
  refine (hignored.trans (foldl_markFrameFree_leads hignored.ok l)).congr fun f hf => ?_
  rw [hignored.free, hl f hf]
  simp [hf]

/-- The frames of the range are reserved one by one. -/
theorem markRangeUsed_eq (h : PmmOk pmm) {base : ℕ} (hbase : base < 2 ^ 64) (length : ℕ) :
    ∃ l : List ℕ, markRangeUsed pmm base length = l.foldl reserveFrame pmm ∧
      ∀ f, f ∈ l ↔ f < pmm.frameCount ∧ ReservedBy base length f := by
  have hnone : (∀ f < pmm.frameCount, ¬ ReservedBy base length f) →
      ∃ l : List ℕ, pmm = l.foldl reserveFrame pmm ∧
        ∀ f, f ∈ l ↔ f < pmm.frameCount ∧ ReservedBy base length f := fun hby =>
    ⟨[], rfl, fun f => iff_of_false List.not_mem_nil fun hf => hby f hf.1 hf.2⟩
  unfold markRangeUsed
  by_cases hzero : length = 0
  · rw [if_pos hzero]
    exact hnone fun f _ hby => absurd hby.1 (by omega)
  rw [if_neg hzero, checkedAdd_eq hbase]
  by_cases hfit : base + length < 2 ^ 64
  · rw [if_pos hfit]
    obtain ⟨a, ha⟩ := exists_alignDown hbase
    obtain ⟨b, hb⟩ := exists_alignUp hfit
    have hby : ∀ f, ReservedBy base length f ↔ a ≤ f ∧ f < b := by
      intro f
      simp only [ReservedBy, ha, hb, page_le, page_lt, hfit, Nat.pos_of_ne_zero hzero, true_and]
    have hstop : (if pmm.maxPhys < b * pageSize then pmm.maxPhys else b * pageSize) =
        min pmm.frameCount b * pageSize := by
      simp only [h.maxPhys, page_lt]
      split_ifs with hclip
      · rw [Nat.min_eq_left hclip.le]
      · rw [Nat.min_eq_right (Nat.not_lt.mp hclip)]
    have hbelow : pmm.maxPhys ≤ a * pageSize ↔ pmm.frameCount ≤ a := by rw [h.maxPhys, page_le]
    simp only [ha, hb, page_le, hbelow, hstop]
    split_ifs with hempty habove
    · exact hnone fun f _ hf => by
        rw [hby] at hf
        omega
    · exact hnone fun f _ hf => by
        rw [hby] at hf
        omega
    · refine ⟨_, rfl, fun f => ?_⟩
      rw [mem_framesBetween, hby]
      omega
  · rw [if_neg hfit]
    exact hnone fun f _ hby => hfit hby.2.1

theorem markRangeUsed_leads (h : PmmOk pmm) {base length : ℕ} (hbase : base < 2 ^ 64) :
    Leads pmm (markRangeUsed pmm base length) fun f => IsFree pmm f ∧
      ¬ ReservedBy base length f := by
  obtain ⟨l, heq, hl⟩ := markRangeUsed_eq h hbase length
  rw [heq]
  refine (foldl_reserveFrame_leads h fun f hf => ((hl f).mp hf).1).congr fun f hf => ?_
  rw [hl]
  simp [hf]

end Mcsos.Pmm
