import Mcsos.Kmem.Coalesce

/-!
# The statistics of the heap

`kmem_get_stats` walks the list of blocks and adds up.  On a heap with the blocks `bs` the walk
ends, the sums do not wrap, and the numbers are those of `bs` (`Rep.getStats_eq`, `Tally`).  They
say exactly which requests succeed.

A request that succeeds takes the first block that fits, and cuts it when more than 80 bytes are
left over.  Freeing the payload at once puts the two pieces together again, and nothing else,
because no two neighbours were free before (`release_carve`).  So the statistics are as before.

A real arena is needed as in `Safety`: in the heap with all the memory a block can be allocated that
cannot be freed.
-/

namespace Mcsos.Kmem

open Memory

variable {h h' : Heap} {b c : Blk} {bs xs ys : List Blk} {p n wanted : ℕ}

/-! ## The walk -/

/-- `kmem_stats_t` -/
structure Stats where
  totalBytes : ℕ
  usedBytes : ℕ
  freeBytes : ℕ
  blockCount : ℕ
  freeCount : ℕ
  largestFree : ℕ
  deriving DecidableEq, Repr

/-- The body of the loop of `kmem_get_stats`. -/
def Stats.add (out : Stats) (free size : ℕ) : Stats :=
  let out := { out with blockCount := add64 out.blockCount 1 }
  if free ≠ 0 then
    { out with
      freeCount := add64 out.freeCount 1
      freeBytes := add64 out.freeBytes size
      largestFree := if out.largestFree < size then size else out.largestFree }
  else { out with usedBytes := add64 out.usedBytes size }

/-- The loop of `kmem_get_stats`. -/
def statsFrom (h : Heap) : (fuel cur : ℕ) → Stats → Option Stats
  | 0, _, _ => none
  | fuel + 1, cur, out =>
      if cur = 0 then some out
        else statsFrom h fuel (h.nextOf cur) (out.add (h.freeOf cur) (h.sizeOf cur))

/-- `kmem_get_stats` -/
def getStats (h : Heap) : Option Stats :=
  if h.initialized = false then some ⟨0, 0, 0, 0, 0, 0⟩
  else statsFrom h h.fuel h.head ⟨sub64 h.heapEnd h.heapBase, 0, 0, 0, 0, 0⟩

/-- The statistics of a list of blocks. -/
def statsOf (total : ℕ) (bs : List Blk) : Stats :=
  bs.foldl (fun out b => out.add (if b.free then 1 else 0) b.size) ⟨total, 0, 0, 0, 0, 0⟩

theorem statsOf_concat (total : ℕ) (xs : List Blk) (b : Blk) :
    statsOf total (xs ++ [b]) = (statsOf total xs).add (if b.free then 1 else 0) b.size := by
  rw [statsOf, List.foldl_append]
  rfl

/-- The loop adds up the rest of the list. -/
theorem Rep.statsFrom_eq (total : ℕ) (xs ys : List Blk) (hrep : Rep h (xs ++ ys)) {fuel : ℕ}
    (hfuel : ys.length < fuel) :
    statsFrom h fuel (linkTo (h.heapBase + extent xs) ys 0) (statsOf total xs) =
      some (statsOf total (xs ++ ys)) := by
  induction ys generalizing xs fuel with
  | nil =>
      obtain ⟨fuel, rfl⟩ : ∃ k, fuel = k + 1 := ⟨fuel - 1, by omega⟩
      rw [List.append_nil]
      rfl
  | cons b ys ih =>
      obtain ⟨fuel, rfl⟩ : ∃ k, fuel = k + 1 := ⟨fuel - 1, by omega⟩
      have hfits := hrep.header_fits
      have hbase := hrep.base_pos
      have hne : ¬ h.heapBase + extent xs = 0 := by omega
      have hrest := ih (xs ++ [b]) hrep.passed (Nat.lt_of_succ_lt_succ hfuel)
      rw [linkTo, statsFrom, if_neg hne, hrep.header.freeOf_eq hfits, hrep.header.sizeOf_eq hfits,
        hrep.next_eq, ← statsOf_concat, hrest, List.append_assoc]
      rfl

theorem Rep.getStats_eq (hrep : Rep h bs) :
    getStats h = some (statsOf (h.heapEnd - h.heapBase) bs) := by
  have htile := hrep.tile
  have hend := hrep.end_lt
  have htotal : sub64 h.heapEnd h.heapBase = h.heapEnd - h.heapBase := sub64_eq (by omega) hend
  have hready : ¬ h.initialized = false := by
    rw [hrep.initialized]
    exact Bool.noConfusion
  have hwalk := Rep.statsFrom_eq (h.heapEnd - h.heapBase) [] bs hrep hrep.length_lt_fuel
  rw [hrep.linkTo_first] at hwalk
  rw [getStats, if_neg hready, hrep.head, htotal]
  exact hwalk

/-! ## The numbers -/

/-- The numbers are those of the blocks `bs`. -/
structure Tally (total : ℕ) (out : Stats) (bs : List Blk) : Prop where
  total : out.totalBytes = total
  sum : out.usedBytes + out.freeBytes + 48 * out.blockCount = extent bs
  blocks : out.blockCount = bs.length
  frees : out.freeCount = bs.countP (·.free)
  largest_le : out.largestFree ≤ out.freeBytes
  le_largest : ∀ b ∈ bs, b.free = true → b.size ≤ out.largestFree
  largest : out.largestFree = 0 ∨ ∃ b ∈ bs, b.free = true ∧ b.size = out.largestFree

theorem tally_nil (total : ℕ) : Tally total ⟨total, 0, 0, 0, 0, 0⟩ [] :=
  ⟨rfl, rfl, rfl, rfl, Nat.le_refl 0, fun _ hb => absurd hb List.not_mem_nil, Or.inl rfl⟩

/-- A used block is counted, if the sums are 64-bit numbers. -/
theorem Stats.add_used {out : Stats} {size : ℕ} (hblocks : out.blockCount + 1 < 2 ^ 64)
    (hused : out.usedBytes + size < 2 ^ 64) :
    out.add 0 size =
      { out with blockCount := out.blockCount + 1, usedBytes := out.usedBytes + size } := by
  rw [Stats.add, if_neg (not_not.mpr rfl), add64_eq hblocks]
  dsimp only
  rw [add64_eq hused]

/-- A free block is counted, if the sums are 64-bit numbers. -/
theorem Stats.add_free {out : Stats} {size : ℕ} (hblocks : out.blockCount + 1 < 2 ^ 64)
    (hfrees : out.freeCount + 1 < 2 ^ 64) (hfree : out.freeBytes + size < 2 ^ 64) :
    out.add 1 size = { out with
      blockCount := out.blockCount + 1
      freeCount := out.freeCount + 1
      freeBytes := out.freeBytes + size
      largestFree := max out.largestFree size } := by
  rw [Stats.add, if_pos Nat.one_ne_zero, add64_eq hblocks]
  dsimp only
  rw [add64_eq hfrees, add64_eq hfree, max_def_lt]

/-- One block more. -/
theorem Tally.add {total : ℕ} {out : Stats} (htally : Tally total out xs) (b : Blk)
    (hsmall : extent (xs ++ [b]) < 2 ^ 64) :
    Tally total (out.add (if b.free then 1 else 0) b.size) (xs ++ [b]) := by
  obtain ⟨htotal, hsum, hblocks, hfrees, hlargest_le, hle_largest, hlargest⟩ := htally
  obtain ⟨size, free⟩ := b
  have hextent : extent (xs ++ [⟨size, free⟩]) = extent xs + 48 + size := extent_concat ..
  rw [hextent] at hsmall
  have hlength : (xs ++ [(⟨size, free⟩ : Blk)]).length = xs.length + 1 := by
    rw [List.length_append]; rfl
  have hcount := List.countP_le_length (p := (·.free)) (l := xs)
  have hold : ∀ b ∈ xs, b ∈ xs ++ [(⟨size, free⟩ : Blk)] := fun b hb => List.mem_append_left _ hb
  cases free with
  | false =>
      rw [if_neg Bool.false_ne_true, Stats.add_used (by omega) (by dsimp only; omega)]
      refine ⟨htotal, ?_, ?_, ?_, hlargest_le, fun b hb hbfree => ?_, ?_⟩
      · rw [hextent]
        dsimp only
        omega
      · rw [hlength, ← hblocks]
      · rw [List.countP_append, ← hfrees]
        rfl
      · rcases List.mem_append.mp hb with hb | hb
        · exact hle_largest b hb hbfree
        · rw [List.mem_singleton.mp hb] at hbfree
          cases hbfree
      · exact hlargest.imp_right fun ⟨b, hb, hbfree⟩ => ⟨b, hold b hb, hbfree⟩
  | true =>
      rw [if_pos rfl, Stats.add_free (by omega) (by omega) (by dsimp only; omega)]
      refine ⟨htotal, ?_, ?_, ?_, ?_, fun b hb hbfree => ?_, ?_⟩
      · rw [hextent]
        dsimp only
        omega
      · rw [hlength, ← hblocks]
      · rw [List.countP_append, ← hfrees]
        rfl
      · exact max_le (Nat.le_add_right_of_le hlargest_le) (Nat.le_add_left size _)
      · rcases List.mem_append.mp hb with hb | hb
        · exact le_max_of_le_left (hle_largest b hb hbfree)
        · rw [List.mem_singleton.mp hb]
          exact le_max_right _ size
      · -- the largest block is the new one or an old one
        rcases max_choice out.largestFree size with hmax | hmax
        · rw [hmax]
          exact hlargest.imp_right fun ⟨b, hb, hbfree⟩ => ⟨b, hold b hb, hbfree⟩
        · rw [hmax]
          exact Or.inr ⟨⟨size, true⟩, List.mem_append_right _ List.mem_cons_self, rfl, rfl⟩

theorem tally_statsOf (total : ℕ) (bs : List Blk) (hsmall : extent bs < 2 ^ 64) :
    Tally total (statsOf total bs) bs := by
  induction bs using List.reverseRecOn with
  | nil => exact tally_nil total
  | append_singleton xs b ih =>
      have hxs : extent xs < 2 ^ 64 := by
        rw [extent_concat] at hsmall
        omega
      rw [statsOf_concat]
      exact (ih hxs).add b hsmall

/-- Exactly the requests up to the size of the largest free block have room. -/
theorem Tally.hasRoom_iff {total : ℕ} {out : Stats} (htally : Tally total out bs)
    (hsizes : SizesOk bs) (hsmall : extent bs < 2 ^ 64) (n : ℕ) :
    HasRoom bs n ↔ 1 ≤ n ∧ n ≤ out.largestFree := by
  constructor
  · rintro ⟨hne, b, hb, hfree, hfit⟩
    have hn : n ≠ 0 := by
      rintro rfl
      exact hne (by decide)
    have hle := le_alignUpSize hne
    have hlargest := htally.le_largest b hb hfree
    exact ⟨by omega, by omega⟩
  · rintro ⟨hpos, hle⟩
    obtain ⟨b, hb, hfree, hsize⟩ := htally.largest.resolve_left (by omega)
    have hdvd := (hsizes b hb).2
    obtain ⟨xs, ys, rfl⟩ := List.append_of_mem hb
    rw [extent_append, extent] at hsmall
    have hup : alignUpSize n align = (n + 15) / 16 * 16 := alignUpSize_eq (by omega)
    refine ⟨?_, b, hb, hfree, ?_⟩
    · rw [hup]
      omega
    · rw [hup]
      omega

/-! ## Allocating and freeing at once -/

theorem absorb_of_apart (b : Blk) (hb : b.free = true) (hys : (b :: ys).IsChain Apart) :
    absorb b ys = b :: ys := by
  cases ys with
  | nil => rfl
  | cons c ys =>
      have hc : c.free = false := (List.isChain_cons_cons.mp hys).1 hb
      rw [absorb, if_neg (by rw [hc]; exact Bool.noConfusion)]

/-- The pieces of a block come together again. -/
theorem absorb_carve {size : ℕ} {rest : List Blk} (hcarve : carve wanted b = ⟨size, false⟩ :: rest)
    (hfit : Fits wanted b) (hys : (b :: ys).IsChain Apart) :
    absorb ⟨size, true⟩ (rest ++ ys) = b :: ys := by
  obtain ⟨bsize, free⟩ := b
  obtain rfl : free = true := hfit.1
  have hwhole := absorb_of_apart ⟨bsize, true⟩ rfl hys
  unfold carve at hcarve
  split_ifs at hcarve with hlarge
  · obtain ⟨hblk, rfl⟩ := List.cons.inj hcarve
    obtain rfl : wanted = size := congrArg Blk.size hblk
    have hsize : wanted + (48 + (bsize - wanted - 48)) = bsize := by
      dsimp only at hlarge
      omega
    rw [List.singleton_append, absorb, if_pos rfl, hsize, hwhole]
  · obtain ⟨hblk, rfl⟩ := List.cons.inj hcarve
    obtain rfl : bsize = size := congrArg Blk.size hblk
    exact hwhole

theorem release_carve {size : ℕ} {rest : List Blk} (hcarve : carve wanted b = ⟨size, false⟩ :: rest)
    (hfit : Fits wanted b) (hbs : (xs ++ b :: ys).IsChain Apart) :
    release xs ⟨size, false⟩ (rest ++ ys) = xs ++ b :: ys := by
  have hback := absorb_carve hcarve hfit hbs.right_of_append
  rcases release_cases xs ⟨size, false⟩ (rest ++ ys) with ⟨-, heq⟩ | ⟨ws, c, rfl, hc, -⟩
  · rw [heq, hback]
  · -- the block before would be free next to a free one
    rw [List.append_assoc] at hbs
    have hb : b.free = false := (List.isChain_cons_cons.mp hbs.right_of_append).1 hc
    exact absurd (hb.symm.trans hfit.1) Bool.false_ne_true

/-- The size of a block that was taken. -/
theorem carve_size {size : ℕ} {rest : List Blk} (hcarve : carve wanted b = ⟨size, false⟩ :: rest)
    (hfit : Fits wanted b) : wanted ≤ size ∧ size ≤ wanted + 80 := by
  have hle := hfit.2
  unfold carve at hcarve
  split_ifs at hcarve with hlarge
  · obtain rfl : wanted = size := congrArg Blk.size (List.cons.inj hcarve).1
    omega
  · obtain rfl : b.size = size := congrArg Blk.size (List.cons.inj hcarve).1
    omega

/-- The pointer `p` is to a new payload for a request that was rounded up to `wanted` bytes.  The
statistics were `out` before, and they are again when the payload is freed at once. -/
structure Takes (out : Stats) (wanted p : ℕ) (h : Heap) : Prop where
  le_size : wanted ≤ h.sizeOf (headerFromPayload p)
  size_le : h.sizeOf (headerFromPayload p) ≤ wanted + 80
  undone : ∃ rc h', freeChecked p h = some (rc, h') ∧ getStats h' = some out

theorem Rep.takes (hrep : Rep h' (xs ++ (carve wanted b ++ ys))) (hsame : SameGlobals h h')
    (hfit : Fits wanted b) (hbs : (xs ++ b :: ys).IsChain Apart) :
    Takes (statsOf (h.heapEnd - h.heapBase) (xs ++ b :: ys)) wanted
      (h.heapBase + extent xs + 48) h' := by
  obtain ⟨size, rest, hcarve, -⟩ := carve_eq_cons hfit.2
  obtain ⟨hlow, hhigh⟩ := carve_size hcarve hfit
  rw [hcarve, List.cons_append] at hrep
  have hsize : h'.sizeOf (headerFromPayload (h'.heapBase + extent xs + 48)) = size := by
    rw [hrep.headerFromPayload_eq]
    exact hrep.header.sizeOf_eq hrep.header_fits
  obtain ⟨h'', hrun, hsame', hrep', -⟩ :=
    hrep.freeChecked_eq (J := fun _ _ => True) (fun _ _ => trivial) rfl trivial
  rw [release_carve hcarve hfit hbs] at hrep'
  have hstats := hrep'.getStats_eq
  rw [hsame'.heapBase, hsame'.heapEnd, hsame.heapBase, hsame.heapEnd] at hstats
  rw [hsame.heapBase] at hsize hrun
  exact ⟨hsize ▸ hlow, hsize ▸ hhigh, _, h'', hrun, hstats⟩

/-! ## States of the heap -/

/-- The result of a request for `n` bytes is as the statistics `out` predict it. -/
def Predicted (out : Stats) (n : ℕ) (result : Option (ℕ × Heap)) : Prop :=
  ∃ p h, result = some (p, h) ∧ (p ≠ 0 ↔ 1 ≤ n ∧ n ≤ out.largestFree) ∧
    (p ≠ 0 → Takes out ((n + 15) / 16 * 16) p h)

/-- What the statistics `out` say about the heap. -/
structure Accounted (x : Sys) (out : Stats) : Prop where
  stats : getStats x.heap = some out
  total : out.totalBytes = x.heap.heapEnd - x.heap.heapBase
  sum : out.usedBytes + out.freeBytes + 48 * out.blockCount = out.totalBytes
  largest_le : out.largestFree ≤ out.freeBytes
  alloc : ∀ n < 2 ^ 64, Predicted out n (alloc n x.heap)
  calloc :
    ∀ count < 2 ^ 64, ∀ bytes < 2 ^ 64, Predicted out (count * bytes) (calloc count bytes x.heap)

theorem predicted_null {out : Stats} (hno : ¬ (1 ≤ n ∧ n ≤ out.largestFree)) (h : Heap) :
    Predicted out n (some (0, h)) :=
  ⟨0, h, rfl, iff_of_false (fun hp => hp rfl) hno, fun hp => absurd rfl hp⟩

theorem Rep.predicted {out : Stats} (hne : alignUpSize n align ≠ 0)
    (hyes : 1 ≤ n ∧ n ≤ out.largestFree) (htakes : Takes out (alignUpSize n align) (p + 48) h) :
    Predicted out n (some (p + 48, h)) := by
  rw [alignUpSize_eq (le_of_alignUpSize_ne_zero hne)] at htakes
  exact ⟨p + 48, h, rfl, iff_of_true (by omega) hyes, fun _ => htakes⟩

theorem Inv.accounted {x : Sys} (hinv : Inv x bs) (hbs : bs.IsChain Apart)
    (hwhole : ¬ Whole x.heap) :
    Accounted x (statsOf (x.heap.heapEnd - x.heap.heapBase) bs) := by
  have hrep := hinv.rep
  have htile := hrep.tile
  have hend := hrep.end_lt
  have htally := tally_statsOf (x.heap.heapEnd - x.heap.heapBase) bs (by omega)
  have hroom := htally.hasRoom_iff hrep.sizes (by omega)
  refine ⟨hrep.getStats_eq, htally.total, ?_, htally.largest_le, fun n _ => ?_,
    fun count _ bytes _ => ?_⟩
  · rw [htally.sum, htally.total]
    omega
  · rcases hrep.alloc_cases n with ⟨hnone, hrefuse⟩ | ⟨xs, b, ys, rfl, hne, hfit, hrun⟩
    · rw [hnone]
      exact predicted_null (mt (hroom n).mpr hrefuse) x.heap
    · have hfits : HasRoom (xs ++ b :: ys) n :=
        ⟨hne, b, List.mem_append_right _ List.mem_cons_self, hfit⟩
      have htaken := hrep.take_of_fits hwhole hfit hne (dvd_alignUpSize n)
      rw [hrun]
      exact Rep.predicted hne ((hroom n).mp hfits) (htaken.takes (sameGlobals_taken ..) hfit hbs)
  · rcases hrep.calloc_cases count bytes with ⟨hnone, hrefuse⟩ | ⟨xs, b, ys, rfl, hne, hfit, hrun⟩
    · -- a product that overflows is larger than any block
      rw [hnone]
      refine predicted_null (fun hyes => hrefuse ⟨?_, (hroom _).mpr hyes⟩) x.heap
      have hsum := htally.sum
      have hlargest := htally.largest_le
      omega
    · have hfits : HasRoom (xs ++ b :: ys) (count * bytes) :=
        ⟨hne, b, List.mem_append_right _ List.mem_cons_self, hfit⟩
      have hsame :=
        sameGlobals_taken x.heap (x.heap.heapBase + extent xs) (alignUpSize (count * bytes) align)
      have hcleared := (hrep.take_of_fits hwhole hfit hne (dvd_alignUpSize (count * bytes))).cleared
        hsame.heapBase hfit.2 (le_alignUpSize hne)
      rw [hrun]
      exact Rep.predicted hne ((hroom (count * bytes)).mp hfits)
        (hcleared.takes (hsame.trans (sameGlobals_cleared ..)) hfit hbs)

/-! ## The heap with all the memory -/

theorem blockCount_add (out : Stats) (hsmall : out.blockCount + 1 < 2 ^ 64) (free size : ℕ) :
    (out.add free size).blockCount = out.blockCount + 1 := by
  have hone : add64 out.blockCount 1 = out.blockCount + 1 := add64_eq hsmall
  rw [Stats.add, hone]
  dsimp only
  by_cases hfree : free ≠ 0
  · rw [if_pos hfree]
  · rw [if_neg hfree]

/-- The walk only adds to the number of blocks. -/
theorem le_blockCount_statsFrom {fuel cur : ℕ} {out out' : Stats}
    (hrun : statsFrom h fuel cur out = some out')
    (hfuel : out.blockCount + fuel < 2 ^ 64) : out.blockCount ≤ out'.blockCount := by
  induction fuel generalizing cur out with
  | zero => cases hrun
  | succ fuel ih =>
      have hone := blockCount_add out (by omega) (h.freeOf cur) (h.sizeOf cur)
      rw [statsFrom] at hrun
      split_ifs at hrun with hcur
      · obtain rfl := Option.some.inj hrun
        exact Nat.le_refl _
      · have hle := ih hrun (by omega)
        omega

theorem overrun_nextOf (mem : Memory) : (overrun mem).nextOf 16 = 2 ^ 64 - 16 := by
  obtain ⟨f, heq⟩ := overrun_eq mem
  rw [heq]
  simp only [Heap.nextOf, Heap.setFree, Heap.setSize, Heap.setNext, Heap.setPrev]
  rw [word_store_of_disjoint _ _ (by decide), word_store_of_disjoint _ _ (by decide),
    word_store_self]
  decide

/-- There is a block more in the list after the only block was allocated. -/
theorem two_le_blockCount_overrun {mem : Memory} {out : Stats}
    (hrun : getStats (overrun mem) = some out) :
    2 ≤ out.blockCount := by
  have hsame := sameGlobals_overrun mem
  have hinit : ¬ (overrun mem).initialized = false := by
    rw [hsame.initialized]
    exact Bool.noConfusion
  have hhead : (overrun mem).head = 16 := hsame.head
  have hend : (overrun mem).heapEnd = 2 ^ 64 - 16 :=
    hsame.heapEnd.trans (by show add64 16 (2 ^ 64 - 32) = _; decide)
  have hbase : (overrun mem).heapBase = 16 := hsame.heapBase
  have hfuel : (overrun mem).fuel = 2 ^ 64 - 34 + 1 + 1 := by
    rw [Heap.fuel, hend, hbase]
    decide
  rw [getStats, if_neg hinit, hhead, hfuel, statsFrom, if_neg (by decide),
    overrun_nextOf, statsFrom, if_neg (by decide)] at hrun
  generalize hfirst :
    (⟨sub64 (overrun mem).heapEnd (overrun mem).heapBase, 0, 0, 0, 0, 0⟩ : Stats).add
    ((overrun mem).freeOf 16) ((overrun mem).sizeOf 16) = first at hrun
  have hone : first.blockCount = 0 + 1 := hfirst ▸ blockCount_add _ (by dsimp only; decide) _ _
  have htwo := blockCount_add first (by omega) ((overrun mem).freeOf (2 ^ 64 - 16))
    ((overrun mem).sizeOf (2 ^ 64 - 16))
  have hle := le_blockCount_statsFrom hrun (by omega)
  omega

/-- Freeing the only block at once does not restore the statistics. -/
theorem whole_not_accounted (mem : Memory) (out : Stats) :
    ¬ Accounted ⟨fresh mem 16 (2 ^ 64 - 32), []⟩ out := by
  intro haccounted
  have hone : out.blockCount = 1 := by
    have hstats := (rep_whole mem).getStats_eq.symm.trans haccounted.stats
    obtain rfl := Option.some.inj hstats
    exact (tally_statsOf _ [⟨wholeSize, true⟩] (by decide)).blocks
  obtain ⟨p, h, hrun, -, htakes⟩ := haccounted.alloc wholeSize (by decide)
  obtain ⟨rfl, rfl⟩ := Prod.mk.inj (Option.some.inj ((alloc_whole mem).symm.trans hrun))
  obtain ⟨rc, h', hfree, hstats⟩ := (htakes (by decide)).undone
  obtain ⟨-, rfl⟩ := Prod.mk.inj (Option.some.inj ((freeChecked_overrun mem).symm.trans hfree))
  have htwo := two_le_blockCount_overrun hstats
  omega

/-- For every arena that `kmem_init` accepts: in all states that the clients can reach the
statistics add up and predict the requests, just when the arena is not all of memory. -/
theorem accounted_iff {base bytes : ℕ} {h₀ : Heap} (hbase : base < 2 ^ 64) (hbytes : bytes < 2 ^ 64)
    (hinit : (init base bytes h₀).1 = 0) :
    (∀ x, Relation.ReflTransGen Step ⟨(init base bytes h₀).2, []⟩ x → ∃ out, Accounted x out) ↔
      RealArena base bytes := by
  obtain ⟨start, usable, hheap, hend, -, -, hrep, hwhole⟩ := init_cases hbase hbytes hinit
  rw [hheap, RealArena, ← hwhole]
  constructor
  · intro hall hw
    obtain ⟨rfl, rfl⟩ := (whole_fresh_iff hend).mp hw
    obtain ⟨out, hout⟩ := hall _ .refl
    exact whole_not_accounted h₀.mem out hout
  · intro hw x hreach
    obtain ⟨hsame, bs, hinv, hbs⟩ := Inv.reach (J := fun bs _ => bs.IsChain Apart)
      (fun heffect hJ => heffect.isChain hJ) (inv_fresh hrep) (List.isChain_singleton _) hw hreach
    exact ⟨_, hinv.accounted hbs fun hw' => hw (hsame.whole_iff.mp hw')⟩

/-- **The statistics predict the requests.** -/
theorem stats_predict {base bytes : ℕ} {h₀ : Heap} (hbase : base < 2 ^ 64) (hbytes : bytes < 2 ^ 64)
    (harena : RealArena base bytes) (hinit : (init base bytes h₀).1 = 0) {x : Sys}
    (hreach : Relation.ReflTransGen Step ⟨(init base bytes h₀).2, []⟩ x) : ∃ out, Accounted x out :=
  (accounted_iff hbase hbytes hinit).mpr harena x hreach

theorem stats_predict_page :
    ∃ p h, alloc 100 (init 4096 4096 blankHeap).2 = some (p, h) ∧
      ∃ out, Accounted ⟨h, record p 100 []⟩ out := by
  have hinit : (init 4096 4096 blankHeap).1 = 0 := by decide
  have hreturns : Returns ⟨(init 4096 4096 blankHeap).2, []⟩ :=
    ((heap_safe_iff (by decide) (by decide) hinit).mpr (by decide) _ .refl).2.1
  obtain ⟨⟨p, h⟩, hrun⟩ := Option.isSome_iff_exists.mp (hreturns.alloc 100 (by decide))
  exact ⟨p, h, hrun, stats_predict (by decide) (by decide) (by decide) hinit
    (.single (.alloc (by decide) hrun))⟩

end Mcsos.Kmem
