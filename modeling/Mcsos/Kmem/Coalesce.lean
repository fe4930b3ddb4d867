import Mcsos.Kmem.Safety
import Mathlib.Data.List.Chain

/-!
# Coalescing

`kmem_free_checked` merges a block with the free blocks next to it, so there are never two free
blocks side by side.  When the clients have given back all their pointers, in any order, all blocks
are free, and that leaves one.  The heap then serves every request that it could serve at first.

The arguments are about lists of blocks and about what a step does to them (`Effect`); `OnList` and
`Coalesced` say in terms of the links in memory what follows.  A real arena is needed as in
`Safety`: in the heap with all the memory a block can be allocated that is never freed.
-/

namespace Mcsos.Kmem

open Memory

variable {h : Heap} {b c : Blk} {bs bs' xs ys zs : List Blk} {live live' : List (ℕ × ℕ)}
  {base q wanted : ℕ}

/-! ## Neighbours -/

/-- Not both blocks are free. -/
def Apart (b c : Blk) : Prop := b.free = true → c.free = false

theorem isChain_absorb (b : Blk) (hys : ys.IsChain Apart) : (absorb b ys).IsChain Apart := by
  induction ys generalizing b with
  | nil => exact List.isChain_singleton b
  | cons c ys ih =>
      rw [absorb]
      split
      next => exact ih _ hys.tail
      next hc => exact List.isChain_cons_cons.mpr ⟨fun _ => Bool.eq_false_of_not_eq_true hc, hys⟩

/-- An allocated block may stand anywhere. -/
theorem isChain_append_used (hxs : xs.IsChain Apart) (hc : c.free = false)
    (hzs : zs.IsChain Apart) :
    (xs ++ c :: zs).IsChain Apart := by
  refine hxs.append (List.isChain_cons.mpr ⟨fun d _ hfree => ?_, hzs⟩) fun d _ e he _ => ?_
  · exact absurd (hc.symm.trans hfree) Bool.false_ne_true
  · obtain rfl : c = e := Option.some.inj he
    exact hc

/-- What stands after a block does not depend on its size. -/
theorem isChain_append_congr (hxs : (xs ++ b :: ys).IsChain Apart) (hfree : c.free = b.free)
    (hzs : (c :: zs).IsChain Apart) : (xs ++ c :: zs).IsChain Apart := by
  obtain ⟨hbefore, -, hseam⟩ := List.isChain_append.mp hxs
  refine hbefore.append hzs fun d hd e he hdfree => ?_
  obtain rfl : c = e := Option.some.inj he
  rw [hfree]
  exact hseam d hd b rfl hdfree

theorem isChain_carve (hfit : Fits wanted b) (hbs : (xs ++ b :: ys).IsChain Apart) :
    (xs ++ (carve wanted b ++ ys)).IsChain Apart := by
  have hafter := hbs.right_of_append
  unfold carve
  split_ifs
  · refine isChain_append_used hbs.left_of_append rfl ?_
    exact hafter.imp_head fun hz _ => hz hfit.1
  · exact isChain_append_used hbs.left_of_append rfl hafter.tail

theorem isChain_release (hbs : (xs ++ b :: ys).IsChain Apart) :
    (release xs b ys).IsChain Apart := by
  have hafter : (absorb ⟨b.size, true⟩ ys).IsChain Apart :=
    isChain_absorb _ (List.isChain_of_isChain_cons hbs.right_of_append)
  rcases release_cases xs b ys with ⟨hlast, heq⟩ | ⟨ws, c, rfl, -, heq⟩
  · rw [heq]
    refine hbs.left_of_append.append hafter fun d hd e _ hfree => ?_
    exact absurd ((hlast d hd).symm.trans hfree) Bool.false_ne_true
  · have hmerged := isChain_absorb c hafter
    obtain ⟨size, zs, hzs⟩ := absorb_eq_cons c (absorb ⟨b.size, true⟩ ys)
    rw [hzs] at hmerged
    rw [List.append_assoc] at hbs
    rw [heq, hzs]
    exact isChain_append_congr hbs rfl hmerged

theorem Effect.isChain (heffect : Effect base bs live bs' live') (hbs : bs.IsChain Apart) :
    bs'.IsChain Apart := by
  cases heffect with
  | keep => exact hbs
  | take hfit => exact isChain_carve hfit hbs
  | release => exact isChain_release hbs

/-! ## Allocated blocks and pointers -/

/-- Every allocated block belongs to a client. -/
def Held (base : ℕ) (bs : List Blk) (live : List (ℕ × ℕ)) : Prop :=
  ∀ q b, (q, b) ∈ positions base bs → b.free = false → ∃ n, (q + 48, n) ∈ live

/-- There is no allocated block at first. -/
theorem held_fresh (base size : ℕ) : Held base [⟨size, true⟩] [] := by
  intro q b hb hused
  exact absurd hb (not_mem_singleton_of_free rfl hused)

/-- Taking a block leaves one allocated block more. -/
theorem mem_positions_of_carve (hc : c.free = false)
    (hmem : (q, c) ∈ positions base (xs ++ (carve wanted b ++ ys))) :
    q = base + extent xs ∨ (q, c) ∈ positions base (xs ++ b :: ys) := by
  rw [positions_append] at hmem ⊢
  rcases List.mem_append.mp hmem with hbefore | hafter
  · exact Or.inr (List.mem_append_left _ hbefore)
  rw [positions_append, extent_carve, ← Nat.add_assoc] at hafter
  rcases List.mem_append.mp hafter with hnew | hafter
  · left
    unfold carve at hnew
    split_ifs at hnew
    · rcases List.mem_cons.mp hnew with heq | hrest
      · exact (Prod.mk.inj heq).1
      · exact absurd hrest (not_mem_singleton_of_free rfl hc)
    · exact (Prod.mk.inj (List.mem_singleton.mp hnew)).1
  · exact Or.inr (List.mem_append_right _ (List.mem_cons_of_mem _ hafter))

theorem Held.step (heffect : Effect base bs live bs' live') (hheld : Held base bs live) :
    Held base bs' live' := by
  intro q c hmem hc
  cases heffect with
  | keep => exact hheld q c hmem hc
  | take hfit =>
      rcases mem_positions_of_carve hc hmem with rfl | hmem
      · exact ⟨_, List.mem_cons_self⟩
      · obtain ⟨n, hn⟩ := hheld q c hmem hc
        exact ⟨n, List.mem_cons_of_mem _ hn⟩
  | @release xs ys b _ m hused hlive =>
      -- the block is not where the one was that has been freed
      have hold : (q, c) ∈ positions base (xs ++ b :: ys) ∧ q ≠ base + extent xs := by
        rw [positions_append]
        rcases (mem_positions_release_iff hc).mp hmem with hbefore | hafter
        · have hle := le_of_mem_positions hbefore
          exact ⟨List.mem_append_left _ hbefore, by omega⟩
        · have hle := le_of_mem_positions hafter
          exact ⟨List.mem_append_right _ (List.mem_cons_of_mem _ hafter), by omega⟩
      obtain ⟨n, hn⟩ := hheld q c hold.1 hc
      refine ⟨n, (List.mem_erase_of_ne fun heq => hold.2 ?_).mpr hn⟩
      have hfst := congrArg Prod.fst heq
      dsimp only at hfst
      omega

/-! ## The list of the heap -/

/-- The blocks that are reached from the head over the links. -/
inductive OnList (h : Heap) : ℕ → Prop where
  | head (hne : h.head ≠ 0) : OnList h h.head
  | next {q : ℕ} (hq : OnList h q) (hne : h.nextOf q ≠ 0) : OnList h (h.nextOf q)

/-- The block after one with a link. -/
theorem Rep.next_cases (hrep : Rep h (xs ++ b :: ys))
    (hne : h.nextOf (h.heapBase + extent xs) ≠ 0) :
    ∃ c zs, ys = c :: zs ∧ h.nextOf (h.heapBase + extent xs) = h.heapBase + extent (xs ++ [b]) := by
  rw [hrep.next_eq] at hne ⊢
  cases ys with
  | nil => exact absurd rfl hne
  | cons c zs => exact ⟨c, zs, rfl, rfl⟩

theorem Rep.onList_iff (hrep : Rep h bs) : OnList h q ↔ Start h.heapBase bs q := by
  constructor
  · intro hq
    induction hq with
    | head =>
        obtain ⟨b, ys, rfl⟩ := List.exists_cons_of_ne_nil hrep.nonempty
        rw [hrep.head]
        exact ⟨b, List.mem_cons_self⟩
    | next _ hne ih =>
        obtain ⟨b, hb⟩ := ih
        obtain ⟨xs, ys, rfl, rfl⟩ := mem_positions.mp hb
        obtain ⟨c, zs, rfl, hnext⟩ := hrep.next_cases hne
        exact ⟨c, mem_positions.mpr ⟨xs ++ [b], zs,
          (List.append_assoc xs [b] (c :: zs)).symm, hnext⟩⟩
  · rintro ⟨b, hb⟩
    obtain ⟨xs, ys, rfl, rfl⟩ := mem_positions.mp hb
    -- the blocks before it are on the list as well
    induction xs using List.reverseRecOn generalizing b ys with
    | nil =>
        have hpos := hrep.base_pos
        have hhead : OnList h h.head := .head (by rw [hrep.head]; omega)
        rw [hrep.head] at hhead
        exact hhead
    | append_singleton xs d ih =>
        have hrep' : Rep h (xs ++ d :: b :: ys) := by
          rw [List.append_assoc] at hrep
          exact hrep
        have hnext : h.nextOf (h.heapBase + extent xs) = h.heapBase + extent (xs ++ [d]) :=
          hrep'.next_eq
        have hpos := hrep.base_pos
        have hprev : OnList h (h.heapBase + extent xs) :=
          ih _ _ hrep' (mem_positions.mpr ⟨xs, _, rfl, rfl⟩)
        rw [← hnext]
        refine .next hprev ?_
        rw [hnext]
        omega

theorem Rep.apart (hrep : Rep h bs) (hbs : bs.IsChain Apart) (hq : OnList h q)
    (hne : h.nextOf q ≠ 0) :
    ¬ (h.freeOf q ≠ 0 ∧ h.freeOf (h.nextOf q) ≠ 0) := by
  obtain ⟨b, hb⟩ := hrep.onList_iff.mp hq
  obtain ⟨xs, ys, rfl, rfl⟩ := mem_positions.mp hb
  obtain ⟨c, zs, rfl, hnext⟩ := hrep.next_cases hne
  have hrep' := hrep.passed
  rw [hnext, hrep.header.freeOf_eq hrep.header_fits, hrep'.header.freeOf_eq hrep'.header_fits,
    mark_ne_zero, mark_ne_zero]
  rintro ⟨hbfree, hcfree⟩
  have hused : c.free = false := (List.isChain_cons_cons.mp hbs.right_of_append).1 hbfree
  exact Bool.false_ne_true (hused.symm.trans hcfree)

/-! ## Requests -/

/-- A call that returns a pointer. -/
def Succeeds (result : Option (ℕ × Heap)) : Prop := ∃ p h, result = some (p, h) ∧ p ≠ 0

theorem not_succeeds_null (h : Heap) : ¬ Succeeds (some (0, h)) := by
  rintro ⟨p, h', heq, hne⟩
  exact hne (Prod.mk.inj (Option.some.inj heq)).1.symm

theorem Rep.alloc_succeeds_iff (hrep : Rep h bs) (n : ℕ) : Succeeds (alloc n h) ↔ HasRoom bs n := by
  rcases hrep.alloc_cases n with ⟨hnone, hrefuse⟩ | ⟨xs, b, ys, rfl, hne, hfit, hrun⟩
  · rw [hnone]
    exact iff_of_false (not_succeeds_null h) hrefuse
  · rw [hrun]
    exact iff_of_true ⟨_, _, rfl, by omega⟩
      ⟨hne, b, List.mem_append_right _ List.mem_cons_self, hfit⟩

theorem Rep.calloc_succeeds_iff (hrep : Rep h bs) (count bytes : ℕ) :
    Succeeds (calloc count bytes h) ↔ count * bytes < 2 ^ 64 ∧ HasRoom bs (count * bytes) := by
  rcases hrep.calloc_cases count bytes with ⟨hnone, hrefuse⟩ | ⟨xs, b, ys, rfl, hne, hfit, hrun⟩
  · rw [hnone]
    exact iff_of_false (not_succeeds_null h) hrefuse
  · have hle := le_of_alignUpSize_ne_zero hne
    rw [hrun]
    exact iff_of_true ⟨_, _, rfl, by omega⟩
      ⟨by omega, hne, b, List.mem_append_right _ List.mem_cons_self, hfit⟩

/-! ## States of the heap -/

/-- What is said about a state; `h₀` is the heap after `kmem_init`. -/
structure Coalesced (h₀ : Heap) (x : Sys) : Prop where
  apart : ∀ q, OnList x.heap q → x.heap.nextOf q ≠ 0 →
    ¬ (x.heap.freeOf q ≠ 0 ∧ x.heap.freeOf (x.heap.nextOf q) ≠ 0)
  single : x.live = [] → SameGlobals h₀ x.heap ∧ x.heap.head = x.heap.heapBase ∧
    Header x.heap.mem x.heap.heapBase ⟨x.heap.heapEnd - x.heap.heapBase - headerSize, true⟩ 0 0
  alloc : x.live = [] → ∀ n < 2 ^ 64, Succeeds (alloc n h₀) → Succeeds (alloc n x.heap)
  calloc : x.live = [] → ∀ count < 2 ^ 64, ∀ bytes < 2 ^ 64,
    Succeeds (calloc count bytes h₀) → Succeeds (calloc count bytes x.heap)

/-- Without a pointer of a client there is one free block. -/
theorem eq_singleton_of_held (hne : bs ≠ []) (hbs : bs.IsChain Apart) (hheld : Held base bs []) :
    ∃ size, bs = [⟨size, true⟩] := by
  have hfree : ∀ b ∈ bs, b.free = true := by
    intro b hb
    obtain ⟨xs, ys, rfl⟩ := List.append_of_mem hb
    by_contra hused
    obtain ⟨n, hn⟩ :=
      hheld _ b (mem_positions.mpr ⟨xs, ys, rfl, rfl⟩) (Bool.eq_false_of_not_eq_true hused)
    exact List.not_mem_nil hn
  match bs with
  | [] => exact absurd rfl hne
  | [⟨size, free⟩] =>
      obtain rfl : free = true := hfree _ List.mem_cons_self
      exact ⟨size, rfl⟩
  | b :: c :: ys =>
      have hused : c.free = false := (List.isChain_cons_cons.mp hbs).1 (hfree b List.mem_cons_self)
      have hcfree := hfree c (List.mem_cons_of_mem _ List.mem_cons_self)
      exact absurd (hused.symm.trans hcfree) Bool.false_ne_true

theorem Rep.coalesced {h₀ : Heap} {x : Sys} {size : ℕ} (hrep₀ : Rep h₀ [⟨size, true⟩])
    (hsame : SameGlobals h₀ x.heap) (hrep : Rep x.heap bs) (hbs : bs.IsChain Apart)
    (hheld : Held h₀.heapBase bs x.live) : Coalesced h₀ x := by
  -- the one block is as large as the first one
  have hfresh : x.live = [] → bs = [⟨size, true⟩] := by
    intro hlive
    rw [hlive] at hheld
    obtain ⟨size', rfl⟩ := eq_singleton_of_held hrep.nonempty hbs hheld
    have htile := hrep.tile
    have htile₀ := hrep₀.tile
    rw [hsame.heapBase, hsame.heapEnd] at htile
    simp only [extent] at htile htile₀
    obtain rfl : size' = size := by omega
    rfl
  refine ⟨fun q hq hne => hrep.apart hbs hq hne, fun hlive => ⟨hsame, hrep.head, ?_⟩,
    fun hlive n _ hsucc => ?_, fun hlive count _ bytes _ hsucc => ?_⟩
  · have htile := hrep.tile
    obtain rfl := hfresh hlive
    simp only [extent] at htile
    have hsize : x.heap.heapEnd - x.heap.heapBase - headerSize = size := by
      unfold headerSize
      omega
    rw [hsize]
    exact hrep.seg.1
  · rw [hrep.alloc_succeeds_iff, hfresh hlive]
    exact (hrep₀.alloc_succeeds_iff n).mp hsucc
  · rw [hrep.calloc_succeeds_iff, hfresh hlive]
    exact (hrep₀.calloc_succeeds_iff count bytes).mp hsucc

/-- In the heap with all the memory the only block stays allocated when it is given back. -/
theorem whole_not_coalesced (mem : Memory) : ∃ x,
    Relation.ReflTransGen Step ⟨fresh mem 16 (2 ^ 64 - 32), []⟩ x ∧
      ¬ Coalesced (fresh mem 16 (2 ^ 64 - 32)) x := by
  have halloc : Step ⟨fresh mem 16 (2 ^ 64 - 32), []⟩ ⟨overrun mem, [(64, wholeSize)]⟩ :=
    Step.alloc_payload (by decide) (by decide) (alloc_whole mem)
  have hfree : Step ⟨overrun mem, [(64, wholeSize)]⟩ ⟨overrun mem, []⟩ :=
    Step.free_last (freeChecked_overrun mem)
  refine ⟨⟨overrun mem, []⟩, .tail (.single halloc) hfree, fun hcoalesced => ?_⟩
  obtain ⟨-, -, hheader⟩ := hcoalesced.single rfl
  have hbase : (overrun mem).heapBase = 16 := (sameGlobals_overrun mem).heapBase
  dsimp only at hheader
  rw [hbase] at hheader
  have hmagic : magic = 16 := (hheader.magicOf_eq (by decide)).symm.trans (overrun_magicOf mem)
  exact absurd hmagic (by decide)

/-- For every arena that `kmem_init` accepts: in all states that the clients can reach no two
neighbours are free, and the heap is as `kmem_init` left it whenever they hold no pointer, just when
the arena is not all of memory. -/
theorem coalesced_iff {base bytes : ℕ} {h₀ : Heap} (hbase : base < 2 ^ 64) (hbytes : bytes < 2 ^ 64)
    (hinit : (init base bytes h₀).1 = 0) :
    (∀ x, Relation.ReflTransGen Step ⟨(init base bytes h₀).2, []⟩ x →
        Coalesced (init base bytes h₀).2 x) ↔
      RealArena base bytes := by
  obtain ⟨start, usable, hheap, hend, -, -, hrep, hwhole⟩ := init_cases hbase hbytes hinit
  rw [hheap, RealArena, ← hwhole]
  constructor
  · intro hall hw
    obtain ⟨rfl, rfl⟩ := (whole_fresh_iff hend).mp hw
    obtain ⟨x, hreach, hnot⟩ := whole_not_coalesced h₀.mem
    exact hnot (hall x hreach)
  · intro hw x hreach
    obtain ⟨hsame, bs, hinv, hbs, hheld⟩ :=
      Inv.reach (J := fun bs live => bs.IsChain Apart ∧
        Held (fresh h₀.mem start usable).heapBase bs live)
        (fun heffect hJ => ⟨heffect.isChain hJ.1, hJ.2.step heffect⟩) (inv_fresh hrep)
        ⟨List.isChain_singleton _, held_fresh _ _⟩ hw hreach
    exact hrep.coalesced hsame hinv.rep hbs hheld

/-- **Coalescing is complete**, in whatever order the pointers are given back. -/
theorem coalescing_complete {base bytes : ℕ} {h₀ : Heap} (hbase : base < 2 ^ 64)
    (hbytes : bytes < 2 ^ 64) (harena : RealArena base bytes)
    (hinit : (init base bytes h₀).1 = 0) {x : Sys}
    (hreach : Relation.ReflTransGen Step ⟨(init base bytes h₀).2, []⟩ x) :
    Coalesced (init base bytes h₀).2 x :=
  (coalesced_iff hbase hbytes hinit).mpr harena x hreach

theorem coalescing_complete_page :
    ∃ p h, alloc 100 (init 4096 4096 blankHeap).2 = some (p, h) ∧
      Coalesced (init 4096 4096 blankHeap).2 ⟨h, record p 100 []⟩ := by
  have hinit : (init 4096 4096 blankHeap).1 = 0 := by decide
  have hreturns : Returns ⟨(init 4096 4096 blankHeap).2, []⟩ :=
    ((heap_safe_iff (by decide) (by decide) hinit).mpr (by decide) _ .refl).2.1
  obtain ⟨⟨p, h⟩, hrun⟩ := Option.isSome_iff_exists.mp (hreturns.alloc 100 (by decide))
  exact ⟨p, h, hrun, coalescing_complete (by decide) (by decide) (by decide) hinit
    (.single (.alloc (by decide) hrun))⟩

end Mcsos.Kmem
