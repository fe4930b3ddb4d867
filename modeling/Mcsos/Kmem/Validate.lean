import Mcsos.Kmem.Safety

/-!
# The self-check of the heap

`kmem_validate` goes through the list of blocks and checks every header.  It finds nothing wrong
with a list of blocks that tile the heap, but it gives up after 1048576 blocks, and
`kmem_free_checked` returns its result for a block that has been freed by then.

How many blocks there are depends on the size of the heap.  An allocated block takes 64 bytes at
least.  The last block takes 96: it comes from a split, which leaves no block smaller than 48 bytes.
-/

namespace Mcsos.Kmem

open Memory

variable {h : Heap} {b c : Blk} {bs bs' xs ys : List Blk} {live live' : List (ℕ × ℕ)}
  {base wanted : ℕ} {x : Sys}

/-! ## The loop -/

theorem validateFrom_null (h : Heap) (guard prev cursor : ℕ) :
    validateFrom h guard 0 prev cursor = 0 := by
  cases guard with
  | zero => exact if_pos rfl
  | succ guard => exact if_pos rfl

namespace Rep

/-- One turn of the loop, at the block `b`. -/
theorem validateFrom_cons (hrep : Rep h (xs ++ b :: ys)) (guard : ℕ) :
    validateFrom h (guard + 1) (h.heapBase + extent xs) (last 0 h.heapBase xs)
      (h.heapBase + extent xs) = validateFrom h guard
      (linkTo (h.heapBase + extent (xs ++ [b])) ys 0)
        (last 0 h.heapBase (xs ++ [b])) (h.heapBase + extent (xs ++ [b])) := by
  have hbase := hrep.base_pos
  have hbounds := hrep.bounds
  have hend := hrep.end_lt
  have hdvd := hrep.dvd_addr
  have hsize := hrep.size_ok
  have hfits := hrep.header_fits
  have hlast : last 0 h.heapBase (xs ++ [b]) = h.heapBase + extent xs := last_append_singleton ..
  have hnext : h.heapBase + extent (xs ++ [b]) = h.heapBase + extent xs + 48 + b.size := by
    rw [extent_concat]
    omega
  have hheader : add64 (h.heapBase + extent xs) headerSize = h.heapBase + extent xs + 48 :=
    hrep.payload_eq
  have hroom : sub64 h.heapEnd (h.heapBase + extent xs + 48) = h.heapEnd -
      (h.heapBase + extent xs + 48) :=
    sub64_eq (by omega) hend
  have hcursor : alignUpPtr (add64 (h.heapBase + extent xs + 48) b.size) align =
      h.heapBase + extent xs + 48 + b.size := by
    rw [add64_eq (by omega)]
    exact alignUpPtr_of_dvd (by omega) (by omega)
  rw [validateFrom, hrep.next_eq, hrep.payload_eq, hheader, hrep.header.sizeOf_eq hfits, hroom,
    hcursor, hlast, hnext]
  rw [if_neg (by omega), if_neg (not_not.mpr rfl), if_neg (by omega),
    if_neg (not_not.mpr (hrep.header.magicOf_eq hfits)),
    if_neg (not_not.mpr (hrep.header.prevOf_eq hfits)),
    if_neg (by omega)]
  exact if_neg (by omega)

/-- The loop accepts the blocks that are left if there are not too many. -/
theorem validateFrom_eq (xs ys : List Blk) (hrep : Rep h (xs ++ ys)) (guard : ℕ) :
    validateFrom h guard (linkTo (h.heapBase + extent xs) ys 0) (last 0 h.heapBase xs)
      (h.heapBase + extent xs) = if ys.length ≤ guard then 0 else -3 := by
  induction ys generalizing xs guard with
  | nil => exact (validateFrom_null ..).trans (if_pos (Nat.zero_le _)).symm
  | cons b ys ih =>
      have hbase := hrep.base_pos
      rw [linkTo, List.length_cons]
      cases guard with
      | zero => rw [validateFrom, if_neg (by omega), if_neg (by omega)]
      | succ guard =>
          rw [hrep.validateFrom_cons, ih (xs ++ [b]) hrep.passed guard]
          exact if_congr Nat.add_le_add_iff_right.symm rfl rfl

theorem validate_eq (hrep : Rep h bs) : validate h = if bs.length ≤ 1048576 then 0 else -3 := by
  have hbase := hrep.base_pos
  have htile := hrep.tile
  have hextent := header_le_extent hrep.nonempty
  have hready : ¬ (h.initialized = false ∨ h.heapBase = 0 ∨ h.heapEnd ≤ h.heapBase ∨
      h.head = 0) := by
    rw [hrep.initialized, hrep.head]
    simp only [Bool.true_eq_false, false_or]
    omega
  have hloop := validateFrom_eq [] bs hrep 1048576
  rw [hrep.linkTo_first] at hloop
  rw [validate, if_neg hready, hrep.head, if_neg (not_not.mpr rfl)]
  exact hloop

end Rep

/-! ## The number of blocks -/

/-- The last block is larger than the smallest one that a split leaves. -/
def LastLarge (bs : List Blk) : Prop := ∀ c ∈ bs.getLast?, minSplit < c.size

theorem lastLarge_append (hys : ys ≠ []) : LastLarge (xs ++ ys) ↔ LastLarge ys := by
  rw [LastLarge, LastLarge, List.getLast?_append_of_ne_nil xs hys]

theorem lastLarge_singleton : LastLarge [b] ↔ minSplit < b.size := by
  rw [LastLarge, List.getLast?_singleton]
  exact ⟨fun hlast => hlast b rfl, fun hb c hc => Option.some.inj hc ▸ hb⟩

/-- Only the size of a block counts, and it may grow. -/
theorem LastLarge.grow (hlast : LastLarge (b :: ys)) (hle : b.size ≤ c.size) :
    LastLarge (c :: ys) := by
  cases ys with
  | nil => exact lastLarge_singleton.mpr (Nat.lt_of_lt_of_le (lastLarge_singleton.mp hlast) hle)
  | cons d ys => exact hlast

theorem LastLarge.absorb (hlast : LastLarge (b :: ys)) : LastLarge (absorb b ys) := by
  induction ys generalizing b with
  | nil => exact hlast
  | cons c ys ih =>
      rw [Kmem.absorb]
      split
      · have htail : LastLarge (c :: ys) := hlast
        refine ih (htail.grow ?_)
        show c.size ≤ b.size + (48 + c.size)
        omega
      · exact hlast

theorem LastLarge.carve (hlast : LastLarge (xs ++ b :: ys)) :
    LastLarge (xs ++ (carve wanted b ++ ys)) := by
  rw [lastLarge_append (List.cons_ne_nil b ys)] at hlast
  unfold Kmem.carve
  split_ifs with hlarge
  · refine (lastLarge_append (List.cons_ne_nil _ _)).mpr ?_
    cases ys with
    | nil =>
        refine lastLarge_singleton.mpr ?_
        show 32 < b.size - wanted - 48
        omega
    | cons c ys => exact hlast
  · refine (lastLarge_append (List.cons_ne_nil _ _)).mpr ?_
    exact hlast.grow (Nat.le_refl b.size)

theorem LastLarge.release (hlast : LastLarge (xs ++ b :: ys)) : LastLarge (release xs b ys) := by
  rw [lastLarge_append (List.cons_ne_nil b ys)] at hlast
  have hmarked : LastLarge (⟨b.size, true⟩ :: ys) := hlast.grow (Nat.le_refl b.size)
  have hafter := hmarked.absorb
  obtain ⟨size, zs, hzs⟩ := absorb_eq_cons ⟨b.size, true⟩ ys
  rw [hzs] at hafter
  rcases release_cases xs b ys with ⟨-, heq⟩ | ⟨ws, c, rfl, -, heq⟩
  · rw [heq, hzs]
    exact (lastLarge_append (List.cons_ne_nil _ _)).mpr hafter
  · have hmerged : LastLarge (Kmem.absorb c (⟨size, true⟩ :: zs)) := LastLarge.absorb hafter
    obtain ⟨size', zs', hzs'⟩ := absorb_eq_cons c (⟨size, true⟩ :: zs)
    rw [hzs'] at hmerged
    rw [heq, hzs, hzs']
    exact (lastLarge_append (List.cons_ne_nil _ _)).mpr hmerged

theorem Effect.lastLarge (heffect : Effect base bs live bs' live') (hlast : LastLarge bs) :
    LastLarge bs' := by
  cases heffect with
  | keep => exact hlast
  | take => exact hlast.carve
  | release => exact hlast.release

/-- Each block takes 64 bytes, and the last one 96. -/
theorem LastLarge.length_le (hlast : LastLarge bs) (hsizes : SizesOk bs) (hne : bs ≠ []) :
    64 * bs.length + 32 ≤ extent bs := by
  induction bs with
  | nil => exact absurd rfl hne
  | cons b bs ih =>
      obtain ⟨⟨hpos, hdvd⟩, hsizes⟩ := sizesOk_cons.mp hsizes
      rw [List.length_cons, extent]
      cases bs with
      | nil =>
          have hlarge : 32 < b.size := lastLarge_singleton.mp hlast
          rw [List.length_nil, extent]
          omega
      | cons c ys =>
          have hrest := ih hlast hsizes (List.cons_ne_nil c ys)
          omega

/-! ## States of the heap -/

/-- The size from which on there is room for more blocks than `kmem_validate` accepts. -/
def alarmSize : ℕ := 64 * 1048576 + 96

/-- What is said about a state: nothing is found wrong. -/
structure NoAlarm (x : Sys) : Prop where
  validate : validate x.heap = 0
  free : ∀ l ∈ x.live, ∃ h, freeChecked l.1 x.heap = some (0, h)

theorem Rep.validate_eq_zero (hrep : Rep h bs) (hlast : LastLarge bs)
    (hsmall : h.heapEnd - h.heapBase < alarmSize) : validate h = 0 := by
  have hlength := hlast.length_le hrep.sizes hrep.nonempty
  have htile := hrep.tile
  unfold alarmSize at hsmall
  rw [hrep.validate_eq]
  exact if_pos (by omega)

theorem Inv.noAlarm (hinv : Inv x bs) (hlast : LastLarge bs)
    (hsmall : x.heap.heapEnd - x.heap.heapBase < alarmSize) : NoAlarm x := by
  refine ⟨hinv.rep.validate_eq_zero hlast hsmall, fun l hl => ?_⟩
  obtain ⟨b, hb, -⟩ := hinv.live l hl
  obtain ⟨xs, ys, rfl, hptr⟩ := hb.split
  obtain ⟨h, hrun, hsame, hrep, -⟩ :=
    hinv.rep.freeChecked_eq (J := fun _ _ => True) (fun _ _ => trivial) hb.used trivial
  refine ⟨h, ?_⟩
  rw [hptr, hrun, hrep.validate_eq_zero hlast.release]
  rw [hsame.heapBase, hsame.heapEnd]
  exact hsmall

/-! ## Too many blocks -/

/-- The free block is the one after all others. -/
theorem eq_of_only_free {us : List Blk} (hus : ∀ d ∈ us, d.free = false) (hb : b.free = true)
    (heq : us ++ [c] = xs ++ b :: ys) : xs = us ∧ b = c ∧ ys = [] := by
  induction us generalizing xs with
  | nil =>
      rcases List.append_eq_singleton_iff.mp heq.symm with ⟨rfl, hrest⟩ | ⟨-, hrest⟩
      · obtain ⟨rfl, rfl⟩ := List.cons.inj hrest
        exact ⟨rfl, rfl, rfl⟩
      · exact absurd hrest (List.cons_ne_nil b ys)
  | cons d us ih =>
      obtain ⟨hd, hus⟩ := List.forall_mem_cons.mp hus
      cases xs with
      | nil =>
          obtain ⟨rfl, -⟩ := List.cons.inj heq
          exact absurd (hd.symm.trans hb) Bool.false_ne_true
      | cons e xs =>
          obtain ⟨rfl, hrest⟩ := List.cons.inj heq
          obtain ⟨rfl, rfl, rfl⟩ := ih hus hrest
          exact ⟨rfl, rfl, rfl⟩

/-- A request of 16 bytes cuts 64 bytes off the free block at the end. -/
theorem Rep.alloc_small {k size : ℕ} (hrep : Rep h (List.replicate k ⟨16, false⟩ ++ [⟨size, true⟩]))
    (hsize : 96 < size) : ∃ p h', alloc 16 h = some (p, h') ∧
      Rep h' (List.replicate (k + 1) ⟨16, false⟩ ++ [⟨size - 64, true⟩]) := by
  have hwanted : alignUpSize 16 align = 16 := by decide
  have hused : ∀ d ∈ List.replicate k (⟨16, false⟩ : Blk), d.free = false := by
    intro d hd
    rw [List.eq_of_mem_replicate hd]
  rcases hrep.alloc_cases 16 with ⟨-, hrefuse⟩ | ⟨xs, b, ys, heq, -, hfit, hrun⟩
  · refine absurd ⟨?_, ⟨size, true⟩, List.mem_append_right _ List.mem_cons_self, rfl, ?_⟩ hrefuse
    · rw [hwanted]
      decide
    · rw [hwanted]
      show 16 ≤ size
      omega
  · obtain ⟨rfl, rfl, rfl⟩ := eq_of_only_free hused hfit.1 heq
    rw [hwanted] at hrun
    have htaken := hrep.take (show 16 ≤ size by omega) (by decide) (by decide) (by decide)
    have hcarve : carve 16 ⟨size, true⟩ = [⟨16, false⟩, ⟨size - 64, true⟩] := by
      rw [carve, if_pos (show 16 + 80 < size from hsize)]
      rfl
    rw [hcarve] at htaken
    refine ⟨_, _, hrun, ?_⟩
    rw [List.replicate_succ', List.append_assoc]
    exact htaken

/-- Such requests fill the heap with small blocks. -/
theorem exists_small_blocks {size : ℕ} (hrep : Rep h [⟨size, true⟩]) {k : ℕ}
    (hk : 64 * k + 32 < size) :
    ∃ x, Relation.ReflTransGen Step ⟨h, []⟩ x ∧
      Rep x.heap (List.replicate k ⟨16, false⟩ ++ [⟨size - 64 * k, true⟩]) := by
  induction k with
  | zero => exact ⟨⟨h, []⟩, .refl, hrep⟩
  | succ k ih =>
      obtain ⟨x, hreach, hblocks⟩ := ih (by omega)
      obtain ⟨p, h', hrun, hblocks'⟩ := hblocks.alloc_small (by omega)
      refine ⟨⟨h', record p 16 x.live⟩, hreach.tail (.alloc (by decide) hrun), ?_⟩
      have hsize : size - 64 * k - 64 = size - 64 * (k + 1) := by omega
      rw [hsize] at hblocks'
      exact hblocks'

/-- A heap that is large enough gets one block too many. -/
theorem not_noAlarm {size : ℕ} (hrep : Rep h [⟨size, true⟩]) (hlarge : alarmSize ≤ size + 48) :
    ∃ x, Relation.ReflTransGen Step ⟨h, []⟩ x ∧ ¬ NoAlarm x := by
  unfold alarmSize at hlarge
  obtain ⟨x, hreach, hblocks⟩ := exists_small_blocks (k := 1048576) hrep (by omega)
  refine ⟨x, hreach, fun hquiet => ?_⟩
  have halarm : validate x.heap = -3 := by
    rw [hblocks.validate_eq, List.length_append, List.length_replicate, List.length_singleton]
    exact if_neg (by decide)
  exact absurd (halarm.symm.trans hquiet.validate) (by decide)

/-- For every arena that `kmem_init` accepts: in all states that the clients can reach
`kmem_validate` returns 0, and `kmem_free_checked` does for their pointers, just when the heap is
smaller than `alarmSize`. -/
theorem noAlarm_iff {base bytes : ℕ} {h₀ : Heap} (hbase : base < 2 ^ 64) (hbytes : bytes < 2 ^ 64)
    (hinit : (init base bytes h₀).1 = 0) :
    (∀ x, Relation.ReflTransGen Step ⟨(init base bytes h₀).2, []⟩ x → NoAlarm x) ↔
      (bytes - ((base + 15) / 16 * 16 - base)) / 16 * 16 < alarmSize := by
  obtain ⟨start, usable, hheap, hend, husable, hsize, hrep, -⟩ := init_cases hbase hbytes hinit
  rw [hheap, ← husable]
  constructor
  · intro hall
    by_contra hlarge
    obtain ⟨x, hreach, hnot⟩ := not_noAlarm hrep (by omega)
    exact hnot (hall x hreach)
  · intro hsmall x hreach
    have hwhole : ¬ Whole (fresh h₀.mem start usable) := by
      rw [whole_fresh_iff hend]
      unfold alarmSize at hsmall
      omega
    have hlast : LastLarge [⟨usable - 48, true⟩] := lastLarge_singleton.mpr (by
      show 32 < usable - 48
      omega)
    obtain ⟨hsame, bs, hinv, hlast'⟩ := Inv.reach (J := fun bs _ => LastLarge bs)
      Effect.lastLarge (inv_fresh hrep) hlast hwhole hreach
    have htile := hrep.tile
    simp only [extent] at htile
    refine hinv.noAlarm hlast' ?_
    rw [hsame.heapBase, hsame.heapEnd]
    dsimp only
    omega

theorem noAlarm_iff_page :
    (∀ x, Relation.ReflTransGen Step ⟨(init 4096 4096 blankHeap).2, []⟩ x → NoAlarm x) ↔
      (4096 - ((4096 + 15) / 16 * 16 - 4096)) / 16 * 16 < alarmSize :=
  noAlarm_iff (by decide) (by decide) (by decide)

theorem alarm_large_heap :
    (init 4096 67108960 blankHeap).1 = 0 ∧
      ∃ x, Relation.ReflTransGen Step ⟨(init 4096 67108960 blankHeap).2, []⟩ x ∧ ¬ NoAlarm x := by
  have hinit : (init 4096 67108960 blankHeap).1 = 0 := by decide
  obtain ⟨start, usable, hheap, -, husable, -, hrep, -⟩ := init_cases (by decide) (by decide) hinit
  rw [hheap]
  exact ⟨hinit, not_noAlarm hrep (by unfold alarmSize; omega)⟩

end Mcsos.Kmem
