import Mcsos.Kmem.SplitMerge

/-!
# Allocating and freeing

`kmem_alloc` takes the first free block that is large enough and splits it; `kmem_free_checked`
marks a block and merges it with its free neighbours.  Both loops end before the fuel does, since
every turn goes on to another block of the list.
-/

namespace Mcsos.Kmem

open Memory

variable {h h' : Heap} {b c : Blk} {bs xs ys : List Blk} {wanted : ℕ}

/-- An allocated block, and the free block that is left of it if that is large enough. -/
def carve (wanted : ℕ) (b : Blk) : List Blk :=
  if wanted + 80 < b.size then [⟨wanted, false⟩, ⟨b.size - wanted - 48, true⟩]
    else [⟨b.size, false⟩]

/-- A block that `kmem_alloc` can take. -/
def Fits (wanted : ℕ) (b : Blk) : Prop := b.free = true ∧ wanted ≤ b.size

/-- The heap after `kmem_alloc` has taken `block`. -/
def taken (h : Heap) (block wanted : ℕ) : Heap := (splitIfUseful h block wanted).setFree block 0

/-- The heap after `kmem_calloc` has cleared the first `n` bytes of a payload. -/
def cleared (h : Heap) (ptr n : ℕ) : Heap := { h with mem := h.mem.fill ptr 0 n }

/-- There is a block for a request of `n` bytes. -/
def HasRoom (bs : List Blk) (n : ℕ) : Prop :=
  alignUpSize n align ≠ 0 ∧ ∃ b ∈ bs, Fits (alignUpSize n align) b

/-- The blocks after `b` was freed, between `xs` and `ys`. -/
def release (xs : List Blk) (b : Blk) (ys : List Blk) : List Blk :=
  match xs.getLast? with
  | some c =>
      if c.free then xs.dropLast ++ absorb c (absorb ⟨b.size, true⟩ ys)
      else xs ++ absorb ⟨b.size, true⟩ ys
  | none => absorb ⟨b.size, true⟩ ys

theorem sameGlobals_taken (h : Heap) (block wanted : ℕ) : SameGlobals h (taken h block wanted) :=
  (sameGlobals_splitIfUseful h block wanted).setFree block 0

theorem sameGlobals_cleared (h : Heap) (ptr n : ℕ) : SameGlobals h (cleared h ptr n) :=
  ⟨rfl, rfl, rfl, rfl⟩

/-- The test of `kmem_calloc` for an overflow. -/
theorem calloc_overflow_iff {count bytes : ℕ} :
    (count ≠ 0 ∧ (2 ^ 64 - 1) / count < bytes) ↔ 2 ^ 64 ≤ count * bytes := by
  rcases Nat.eq_zero_or_pos count with rfl | hpos
  · rw [Nat.zero_mul]
    exact iff_of_false (fun hover => hover.1 rfl) (by decide)
  · rw [Nat.div_lt_iff_lt_mul hpos, Nat.mul_comm bytes count]
    constructor
    · intro hover
      exact Nat.le_of_pred_lt hover.2
    · intro hle
      exact ⟨Nat.ne_of_gt hpos, Nat.lt_of_lt_of_le (by decide) hle⟩

/-- The block before the one that is freed is allocated, if there is one, or it is merged as
well. -/
theorem release_cases (xs : List Blk) (b : Blk) (ys : List Blk) :
    ((∀ c ∈ xs.getLast?, c.free = false) ∧ release xs b ys = xs ++ absorb ⟨b.size, true⟩ ys) ∨
      ∃ ws c, xs = ws ++ [c] ∧ c.free = true ∧
        release xs b ys = ws ++ absorb c (absorb ⟨b.size, true⟩ ys) := by
  unfold release
  rcases List.eq_nil_or_concat xs with rfl | ⟨ws, c, rfl⟩
  · exact Or.inl ⟨fun c hc => absurd hc (Option.not_mem_none c), rfl⟩
  · rw [List.concat_eq_append, List.getLast?_concat]
    dsimp only
    split_ifs with hc
    · exact Or.inr ⟨ws, c, rfl, hc, by rw [List.dropLast_concat]⟩
    · exact Or.inl ⟨fun d hd => Option.some.inj hd ▸ Bool.eq_false_of_not_eq_true hc, rfl⟩

namespace Rep

theorem payload_eq (hrep : Rep h (xs ++ b :: ys)) :
    payload (h.heapBase + extent xs) = h.heapBase + extent xs + 48 := by
  have hbounds := hrep.bounds
  have hend := hrep.end_lt
  exact add64_eq (by unfold headerSize; omega)

theorem headerFromPayload_eq (hrep : Rep h (xs ++ b :: ys)) :
    headerFromPayload (h.heapBase + extent xs + 48) = h.heapBase + extent xs := by
  have hbounds := hrep.bounds
  have hend := hrep.end_lt
  rw [headerFromPayload, sub64_eq (by unfold headerSize; omega) (by omega)]
  rfl

theorem dvd_addr (hrep : Rep h (xs ++ b :: ys)) : 16 ∣ h.heapBase + extent xs :=
  (Nat.dvd_add_right hrep.base_dvd).mpr (sizesOk_append.mp hrep.sizes).1.extent

/-! ## Allocating -/

theorem setFree (hrep : Rep h (xs ++ b :: ys)) (free : Bool) :
    Rep (h.setFree (h.heapBase + extent xs) (if free then 1 else 0))
      (xs ++ ⟨b.size, free⟩ :: ys) := by
  have hfits := hrep.header_fits
  refine hrep.replace ⟨rfl, rfl, rfl, rfl⟩ (List.cons_ne_nil _ _) (List.cons_ne_nil _ _)
    rfl ?_ ?_ ?_
  · have hsizes := sizesOk_cons.mp (sizesOk_append.mp hrep.sizes).2
    exact sizesOk_cons.mpr hsizes
  · exact sameOn_setFree hfits (Or.inl (Nat.le_refl _)) h _
  · exact ⟨hrep.header.setFree hfits free,
      hrep.rest.congr (sameOn_setFree hfits (Or.inr (by omega)) h _)⟩

theorem splitIfUseful_eq (hrep : Rep h (xs ++ b :: ys)) (hfit : wanted ≤ b.size)
    (hsmall : wanted + 80 < 2 ^ 64) (hdvd : 16 ∣ wanted) :
    splitIfUseful h (h.heapBase + extent xs) wanted =
      if wanted + 80 < b.size then
        Kmem.split h (h.heapBase + extent xs) wanted (h.heapBase + extent xs + 48 + wanted)
      else h := by
  have hbounds := hrep.bounds
  have hend := hrep.end_lt
  have hpdvd := hrep.dvd_addr
  have hsize := hrep.header.sizeOf_eq hrep.header_fits
  have hpayload := hrep.payload_eq
  generalize h.heapBase + extent xs = p at hbounds hpdvd hsize hpayload ⊢
  have hheader : alignUpSize headerSize align = 48 := by decide
  have haddr : add64 (p + 48) wanted = p + 48 + wanted := add64_eq (by omega)
  have hnew : alignUpPtr (p + 48 + wanted) align = p + 48 + wanted :=
    alignUpPtr_of_dvd (by omega) (by omega)
  have hconsumed : sub64 (p + 48 + wanted) (p + 48) = wanted := by
    rw [sub64_eq (by omega) (by omega), Nat.add_sub_cancel_left]
  have hsum : add64 (add64 wanted 48) minSplit = wanted + 80 := by
    have hinner : add64 wanted 48 = wanted + 48 := add64_eq (by omega)
    rw [hinner]
    exact add64_eq (by unfold minSplit; omega)
  simp only [splitIfUseful, hheader, hpayload, haddr, hnew, hconsumed, hsize]
  by_cases hlarge : wanted + 80 < b.size
  · have hroom : ¬ h.heapEnd ≤ add64 (p + 48 + wanted) headerSize := by
      have hlast : add64 (p + 48 + wanted) headerSize = p + 48 + wanted + 48 :=
        add64_eq (by unfold headerSize; omega)
      omega
    have hsum' : ¬ b.size ≤ add64 (add64 wanted headerSize) minSplit := by
      show ¬ b.size ≤ add64 (add64 wanted 48) minSplit
      omega
    rw [if_neg (by decide), if_neg (by omega), if_neg (by omega), if_neg hroom, if_neg hsum',
      if_pos hlarge]
  · have hsum' : b.size ≤ add64 (add64 wanted headerSize) minSplit := by
      show b.size ≤ add64 (add64 wanted 48) minSplit
      omega
    rw [if_pos hsum', ite_self, ite_self, ite_self, ite_self, if_neg hlarge]

/-- A block is taken. -/
theorem take (hrep : Rep h (xs ++ b :: ys)) (hfit : wanted ≤ b.size) (hsmall : wanted + 80 < 2 ^ 64)
    (hpos : 0 < wanted) (hdvd : 16 ∣ wanted) :
    Rep (taken h (h.heapBase + extent xs) wanted) (xs ++ (carve wanted b ++ ys)) := by
  rw [taken, hrep.splitIfUseful_eq hfit hsmall hdvd, carve]
  split
  next hlarge =>
    have hsplit := hrep.split hlarge hpos hdvd
    have hbase := (sameGlobals_split h (h.heapBase + extent xs) wanted
      (h.heapBase + extent xs + 48 + wanted)).heapBase
    have hfree := hsplit.setFree false
    rw [hbase] at hfree
    exact hfree
  next => exact hrep.setFree false

theorem next_eq (hrep : Rep h (xs ++ b :: ys)) :
    h.nextOf (h.heapBase + extent xs) = linkTo (h.heapBase + extent (xs ++ [b])) ys 0 := by
  rw [hrep.header.nextOf_eq hrep.header_fits, extent_concat]
  simp only [Nat.add_assoc]

/-- The loop of `kmem_alloc` takes the first block that fits. -/
theorem allocFrom_cases (wanted : ℕ) (xs ys : List Blk) (hrep : Rep h (xs ++ ys)) {fuel : ℕ}
    (hfuel : ys.length < fuel) :
    (allocFrom wanted h fuel (linkTo (h.heapBase + extent xs) ys 0) = some (0, h) ∧
        ∀ b ∈ ys, ¬ Fits wanted b) ∨
      ∃ zs b ws, ys = zs ++ b :: ws ∧ Fits wanted b ∧
        allocFrom wanted h fuel (linkTo (h.heapBase + extent xs) ys 0) =
          some (h.heapBase + extent (xs ++ zs) + 48, taken h (h.heapBase + extent (xs ++ zs))
            wanted) := by
  induction ys generalizing xs fuel with
  | nil =>
      obtain ⟨fuel, rfl⟩ : ∃ k, fuel = k + 1 := ⟨fuel - 1, by omega⟩
      exact Or.inl ⟨rfl, fun b hb => absurd hb List.not_mem_nil⟩
  | cons b ys ih =>
      obtain ⟨fuel, rfl⟩ : ∃ k, fuel = k + 1 := ⟨fuel - 1, by omega⟩
      have hfits := hrep.header_fits
      have hbase := hrep.base_pos
      have hne : ¬ h.heapBase + extent xs = 0 := by omega
      rw [linkTo, allocFrom, if_neg hne, if_neg (not_not.mpr (hrep.header.magicOf_eq hfits)),
        hrep.header.freeOf_eq hfits, hrep.header.sizeOf_eq hfits]
      by_cases hfit : Fits wanted b
      · refine Or.inr ⟨[], b, ys, rfl, hfit, ?_⟩
        rw [if_pos ⟨mark_ne_zero.mpr hfit.1, hfit.2⟩, List.append_nil, hrep.payload_eq, taken]
      · have hskip : ¬ ((if b.free then 1 else 0) ≠ 0 ∧ wanted ≤ b.size) := fun htake =>
          hfit ⟨mark_ne_zero.mp htake.1, htake.2⟩
        rw [if_neg hskip, hrep.next_eq]
        rcases ih (xs ++ [b]) hrep.passed (Nat.lt_of_succ_lt_succ hfuel) with
          ⟨hnone, hrefuse⟩ | ⟨zs, d, ws, rfl, hd, hrun⟩
        · exact Or.inl ⟨hnone, List.forall_mem_cons.mpr ⟨hfit, hrefuse⟩⟩
        · refine Or.inr ⟨b :: zs, d, ws, rfl, hd, ?_⟩
          rw [hrun, List.append_assoc, List.singleton_append]

theorem length_lt_fuel (hrep : Rep h bs) : bs.length < h.fuel := by
  have hlen := length_le_extent bs
  have htile := hrep.tile
  have hpos : 0 < bs.length := List.length_pos_iff.mpr hrep.nonempty
  unfold Heap.fuel
  omega

theorem linkTo_first (hrep : Rep h bs) : linkTo (h.heapBase + extent []) bs 0 = h.heapBase := by
  cases bs with
  | nil => exact absurd rfl hrep.nonempty
  | cons b bs => rfl

/-- `kmem_alloc` fails, or takes a free block that is large enough. -/
theorem alloc_cases (hrep : Rep h bs) (n : ℕ) :
    (alloc n h = some (0, h) ∧ ¬ HasRoom bs n) ∨
      ∃ xs b ys, bs = xs ++ b :: ys ∧ alignUpSize n align ≠ 0 ∧ Fits (alignUpSize n align) b ∧
        alloc n h = some (h.heapBase + extent xs + 48,
          taken h (h.heapBase + extent xs) (alignUpSize n align)) := by
  unfold alloc
  dsimp only
  by_cases hzero : alignUpSize n align = 0
  · refine Or.inl ⟨?_, fun hroom => hroom.1 hzero⟩
    rw [if_pos hzero, ite_self]
  have hready : ¬ (h.initialized = false ∨ n = 0) := by
    rw [hrep.initialized]
    rintro (hinit | rfl)
    · cases hinit
    · exact hzero (by decide)
  have hloop := allocFrom_cases (alignUpSize n align) [] bs hrep hrep.length_lt_fuel
  rw [hrep.linkTo_first] at hloop
  rw [if_neg hready, if_neg hzero, hrep.head]
  rcases hloop with ⟨hnone, hrefuse⟩ | ⟨xs, b, ys, rfl, hfit, hrun⟩
  · refine Or.inl ⟨hnone, ?_⟩
    rintro ⟨-, b, hb, hfit⟩
    exact hrefuse b hb hfit
  · exact Or.inr ⟨xs, b, ys, rfl, hzero, hfit, hrun⟩

/-- `kmem_calloc` does the same for a product that does not overflow, and clears the bytes. -/
theorem calloc_cases (hrep : Rep h bs) (count bytes : ℕ) :
    (calloc count bytes h = some (0, h) ∧ ¬ (count * bytes < 2 ^ 64 ∧ HasRoom bs (count * bytes))) ∨
      ∃ xs b ys, bs = xs ++ b :: ys ∧ alignUpSize (count * bytes) align ≠ 0 ∧
        Fits (alignUpSize (count * bytes) align) b ∧
        calloc count bytes h = some (h.heapBase + extent xs + 48,
          cleared (taken h (h.heapBase + extent xs) (alignUpSize (count * bytes) align))
            (h.heapBase + extent xs + 48) (count * bytes)) := by
  unfold calloc
  by_cases hover : count ≠ 0 ∧ (2 ^ 64 - 1) / count < bytes
  · refine Or.inl ⟨if_pos hover, fun hroom => ?_⟩
    exact absurd (calloc_overflow_iff.mp hover) (Nat.not_le.mpr hroom.1)
  have hlt : count * bytes < 2 ^ 64 := Nat.not_le.mp fun hle => hover (calloc_overflow_iff.mpr hle)
  rw [if_neg hover, Nat.mod_eq_of_lt hlt]
  dsimp only
  rcases hrep.alloc_cases (count * bytes) with ⟨hnone, hrefuse⟩ | ⟨xs, b, ys, rfl, hne, hfit, hrun⟩
  · refine Or.inl ⟨?_, fun hroom => hrefuse hroom.2⟩
    rw [hnone]
    rfl
  · refine Or.inr ⟨xs, b, ys, rfl, hne, hfit, ?_⟩
    rw [hrun]
    exact if_pos (by omega)

/-! ## Freeing -/

section Freeing

-- what merging preserves, besides the list of blocks
variable {J : Heap → List Blk → Prop}
  (hJ : ∀ {h : Heap} {xs ys : List Blk} {b c : Blk}, Rep h (xs ++ b :: c :: ys) →
    J h (xs ++ b :: c :: ys) →
    J (Kmem.merge h (h.heapBase + extent xs) (h.heapBase + extent xs + 48 + b.size))
      (xs ++ ⟨b.size + (48 + c.size), b.free⟩ :: ys))
include hJ

/-- The loop of `kmem_coalesce_forward` joins a block with all free blocks after it. -/
theorem coalesceForward_eq (xs ys : List Blk) : ∀ {h : Heap} {b : Blk} {fuel : ℕ},
    Rep h (xs ++ b :: ys) → J h (xs ++ b :: ys) → ys.length < fuel →
      ∃ h', coalesceForward (h.heapBase + extent xs) fuel h = some h' ∧ SameGlobals h h' ∧
        Rep h' (xs ++ absorb b ys) ∧ J h' (xs ++ absorb b ys) := by
  induction ys with
  | nil =>
      intro h b fuel hrep hkept hfuel
      obtain ⟨fuel, rfl⟩ : ∃ k, fuel = k + 1 := ⟨fuel - 1, by omega⟩
      have hnext : h.nextOf (h.heapBase + extent xs) = 0 := hrep.header.nextOf_eq hrep.header_fits
      refine ⟨h, ?_, SameGlobals.refl h, hrep, hkept⟩
      rw [coalesceForward, hnext, if_neg fun hgo => hgo.2.1 rfl]
  | cons c ys ih =>
      intro h b fuel hrep hkept hfuel
      obtain ⟨fuel, rfl⟩ : ∃ k, fuel = k + 1 := ⟨fuel - 1, by omega⟩
      have hbase := hrep.base_pos
      have hbounds := hrep.bounds
      have hend := hrep.end_lt
      have hdvd := hrep.dvd_addr
      have hsize := hrep.size_ok.2
      rw [extent] at hbounds
      have hnext : h.nextOf (h.heapBase + extent xs) = h.heapBase + extent xs + 48 + b.size :=
        hrep.header.nextOf_eq hrep.header_fits
      have hfree := hrep.second.1.freeOf_eq (by omega)
      rw [coalesceForward, hnext, hfree]
      by_cases hc : c.free = true
      · have hgo : h.heapBase + extent xs ≠ 0 ∧ h.heapBase + extent xs + 48 + b.size ≠ 0 ∧
            (if c.free then 1 else 0) ≠ 0 := ⟨by omega, by omega, mark_ne_zero.mpr hc⟩
        have hexpected : alignUpPtr (add64 (payload (h.heapBase + extent xs))
            (h.sizeOf (h.heapBase + extent xs))) align = h.heapBase + extent xs + 48 + b.size := by
          rw [hrep.payload_eq, hrep.header.sizeOf_eq hrep.header_fits, add64_eq (by omega)]
          exact alignUpPtr_of_dvd (by omega) (by omega)
        have hglobals := sameGlobals_merge h (h.heapBase + extent xs)
          (h.heapBase + extent xs + 48 + b.size)
        obtain ⟨h', hrun, hglobals', hrep'⟩ :=
          ih hrep.merge (hJ hrep hkept) (Nat.lt_of_succ_lt_succ hfuel)
        rw [hglobals.heapBase] at hrun
        rw [if_pos hgo, if_neg (not_not.mpr hexpected), absorb, if_pos hc]
        exact ⟨h', hrun, hglobals.trans hglobals', hrep'⟩
      · have hstop : ¬ (h.heapBase + extent xs ≠ 0 ∧ h.heapBase + extent xs + 48 + b.size ≠ 0 ∧
            (if c.free then 1 else 0) ≠ 0) := fun hgo => hc (mark_ne_zero.mp hgo.2.2)
        rw [if_neg hstop, absorb, if_neg hc]
        exact ⟨h, rfl, SameGlobals.refl h, hrep, hkept⟩

/-- Marking a block and merging it with its neighbours. -/
theorem coalesce_eq (hrep : Rep h (xs ++ ⟨b.size, true⟩ :: ys))
    (hkept : J h (xs ++ ⟨b.size, true⟩ :: ys)) :
    ∃ h', coalesce h (h.heapBase + extent xs) = some h' ∧ SameGlobals h h' ∧
      Rep h' (release xs b ys) ∧ J h' (release xs b ys) := by
  have hbase := hrep.base_pos
  have hfuel := hrep.length_lt_fuel
  rw [List.length_append, List.length_cons] at hfuel
  obtain ⟨h₁, hrun₁, hglobals₁, hrep₁, hkept₁⟩ := coalesceForward_eq hJ xs ys hrep hkept
    (by omega : ys.length < h.fuel)
  obtain ⟨size, zs, hzs⟩ : ∃ size zs, absorb ⟨b.size, true⟩ ys = ⟨size, true⟩ :: zs :=
    absorb_eq_cons ⟨b.size, true⟩ ys
  rw [hzs] at hrep₁ hkept₁
  have hheader := hrep₁.header.prevOf_eq hrep₁.header_fits
  rw [hglobals₁.heapBase] at hheader
  unfold coalesce release
  rw [hrun₁, hzs]
  dsimp only
  rw [hheader]
  rcases List.eq_nil_or_concat xs with rfl | ⟨ws, c, rfl⟩
  · -- there is no block before
    have hstop : ¬ (last 0 h.heapBase [] ≠ 0 ∧ h₁.freeOf (last 0 h.heapBase []) ≠ 0) := fun hgo =>
      hgo.1 rfl
    rw [if_neg hstop]
    exact ⟨h₁, rfl, hglobals₁, hrep₁, hkept₁⟩
  · rw [List.concat_eq_append] at hrep₁ hkept₁ ⊢
    have hprev : last 0 h.heapBase (ws ++ [c]) = h.heapBase + extent ws := last_append_singleton ..
    rw [List.append_assoc, List.singleton_append] at hrep₁ hkept₁
    have hfree := hrep₁.header.freeOf_eq hrep₁.header_fits
    rw [hglobals₁.heapBase] at hfree
    rw [hprev, hfree, List.getLast?_concat]
    dsimp only
    by_cases hc : c.free = true
    · have hfuel₁ := hrep₁.length_lt_fuel
      rw [List.length_append, List.length_cons] at hfuel₁
      obtain ⟨h₂, hrun₂, hglobals₂, hkept₂⟩ :=
        coalesceForward_eq hJ ws (⟨size, true⟩ :: zs) hrep₁ hkept₁
        (by omega : _ < h₁.fuel)
      rw [hglobals₁.heapBase] at hrun₂
      have hgo : h.heapBase + extent ws ≠ 0 ∧ (if c.free then 1 else 0) ≠ 0 :=
        ⟨by omega, mark_ne_zero.mpr hc⟩
      rw [if_pos hgo, if_pos hc, List.dropLast_concat]
      exact ⟨h₂, hrun₂, hglobals₁.trans hglobals₂, hkept₂⟩
    · have hstop : ¬ (h.heapBase + extent ws ≠ 0 ∧ (if c.free then 1 else 0) ≠ 0) := fun hgo =>
        hc (mark_ne_zero.mp hgo.2)
      rw [if_neg hstop, if_neg hc]
      refine ⟨h₁, rfl, hglobals₁, ?_⟩
      rw [List.append_assoc, List.singleton_append]
      exact ⟨hrep₁, hkept₁⟩

/-- `kmem_free_checked` frees an allocated block. -/
theorem freeChecked_eq (hrep : Rep h (xs ++ b :: ys)) (hused : b.free = false)
    (hkept : J (h.setFree (h.heapBase + extent xs) 1) (xs ++ ⟨b.size, true⟩ :: ys)) :
    ∃ h', freeChecked (h.heapBase + extent xs + 48) h = some (validate h', h') ∧ SameGlobals h h' ∧
      Rep h' (release xs b ys) ∧ J h' (release xs b ys) := by
  have hbase := hrep.base_pos
  have hbounds := hrep.bounds
  have hend := hrep.end_lt
  have hdvd := hrep.dvd_addr
  have hsize := hrep.size_ok.1
  have hfits := hrep.header_fits
  have hinHeap : ∀ ptr, h.heapBase ≤ ptr → ptr < h.heapEnd → ¬ ptrInHeap h ptr = false := by
    intro ptr hlo hhi
    simp [ptrInHeap, hrep.initialized, hlo, hhi]
  have haligned : ¬ (h.heapBase + extent xs + 48) &&& (align - 1) ≠ 0 := by
    have hmod : (h.heapBase + extent xs + 48) &&& (2 ^ 4 - 1) =
        (h.heapBase + extent xs + 48) % 2 ^ 4 :=
      Nat.and_two_pow_sub_one_eq_mod _ 4
    show ¬ (h.heapBase + extent xs + 48) &&& (2 ^ 4 - 1) ≠ 0
    omega
  have hvalid : ¬ (ptrInHeap h (h.heapBase + extent xs) = false ∨
      h.magicOf (h.heapBase + extent xs) ≠ magic) :=
    not_or.mpr ⟨hinHeap _ (by omega) (by omega), not_not.mpr (hrep.header.magicOf_eq hfits)⟩
  have hnotfree : ¬ h.freeOf (h.heapBase + extent xs) ≠ 0 := by
    rw [hrep.header.freeOf_eq hfits, hused]
    decide
  obtain ⟨h', hrun, hglobals, hrep'⟩ := (hrep.setFree true).coalesce_eq hJ hkept
  have hmarked :=
    (SameGlobals.refl h).setFree (h.heapBase + extent xs) (if true = true then 1 else 0)
  refine ⟨h', ?_, hmarked.trans hglobals, hrep'⟩
  simp only [freeChecked, hrep.headerFromPayload_eq]
  rw [if_neg (by omega), if_neg (hinHeap _ (by omega) (by omega)), if_neg haligned, if_neg hvalid,
    if_neg hnotfree]
  have hmark : (if true = true then 1 else 0 : ℕ) = 1 := rfl
  rw [hmark] at hrun
  have hrun' : coalesce (h.setFree (h.heapBase + extent xs) 1) (h.heapBase + extent xs) = some h' :=
    hrun
  rw [hrun']

end Freeing

end Rep

end Mcsos.Kmem
