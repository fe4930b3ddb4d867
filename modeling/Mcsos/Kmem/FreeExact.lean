import Mcsos.Kmem.Coalesce
import Mcsos.Kmem.Magic

/-!
# The pointers that `kmem_free_checked` accepts

`kmem_free_checked` takes any pointer and reads a header in front of it.  It frees a block just for
the pointers that the clients hold, and refuses all others without a change of the heap, as long as
the magic number is in no aligned word of the arena but the headers.  The heap keeps it that way:
splitting stores the number in a new header, and merging clears it in the one that goes.
-/

namespace Mcsos.Kmem

open Bytes Memory

variable {h h' : Heap} {mem : Memory} {b c : Blk} {bs bs' xs ys : List Blk} {live : List (ℕ × ℕ)}
  {a p q n wanted : ℕ} {rc : Int} {x y : Sys}

/-! ## Clients with any pointers -/

/-- The magic number is in no aligned word of the arena, except for the blocks of the list. -/
def NoStray (h : Heap) : Prop :=
  ∀ q, h.heapBase ≤ q → q < h.heapEnd → 16 ∣ q → h.magicOf q = magic → OnList h q

/-- A call of the heap, with any pointer for `kmem_free_checked`, or a write to a payload that does
not store the magic number there. -/
inductive AnyStep (x : Sys) : Sys → Prop where
  | alloc {n p : ℕ} {h : Heap} (hn : n < 2 ^ 64) (hrun : alloc n x.heap = some (p, h)) :
      AnyStep x ⟨h, record p n x.live⟩
  | calloc {count bytes p : ℕ} {h : Heap} (hcount : count < 2 ^ 64) (hbytes : bytes < 2 ^ 64)
      (hrun : calloc count bytes x.heap = some (p, h)) :
      AnyStep x ⟨h, record p (count * bytes) x.live⟩
  | free {p : ℕ} {rc : Int} {h : Heap} (hp : p < 2 ^ 64)
      (hrun : freeChecked p x.heap = some (rc, h)) :
      AnyStep x ⟨h, x.live.filter fun l => l.1 ≠ p⟩
  | write {p n a : ℕ} {v : UInt8} (hlive : (p, n) ∈ x.live)
      (ha : p ≤ a ∧ a < p + x.heap.sizeOf (headerFromPayload p))
      (hclean : NoStray { x.heap with mem := Function.update x.heap.mem a v }) :
      AnyStep x ⟨{ x.heap with mem := Function.update x.heap.mem a v }, x.live⟩

/-- What is said about a state: the pointers of the clients are freed, and all others refused. -/
structure FreeExact (x : Sys) : Prop where
  live : ∀ l ∈ x.live, ∃ xs b ys rc h, Rep x.heap (xs ++ b :: ys) ∧ b.free = false ∧
    l.1 = x.heap.heapBase + extent xs + headerSize ∧ freeChecked l.1 x.heap = some (rc, h) ∧
    Rep h (release xs b ys)
  other :
    ∀ p < 2 ^ 64, p ≠ 0 → (∀ l ∈ x.live, l.1 ≠ p) → ∃ rc < 0, freeChecked p x.heap =
      some (rc, x.heap)

/-! ## Where the magic number is -/

/-- An address outside of the arena, or the start of a block. -/
def Placed (base limit : ℕ) (bs : List Blk) (q : ℕ) : Prop := base ≤ q → q < limit → Start base bs q

theorem Rep.noStray_iff (hrep : Rep h bs) :
    NoStray h ↔ MagicIn h.mem (Placed h.heapBase h.heapEnd bs) := by
  have hend := hrep.end_lt
  have hmagic : ∀ q, q < h.heapEnd → h.magicOf q = word h.mem 8 q := by
    intro q hq
    rw [Heap.magicOf, add64_eq (by omega), Nat.add_zero]
  constructor
  · intro hclean q hdvd hq hlo hhi
    exact hrep.onList_iff.mp (hclean q hlo hhi hdvd ((hmagic q hhi).trans hq))
  · intro hmem q hlo hhi hdvd hq
    exact hrep.onList_iff.mpr (hmem q hdvd ((hmagic q hhi).symm.trans hq) hlo hhi)

/-- The starts of blocks after one was taken. -/
theorem start_carve_iff : Start a (xs ++ (carve wanted b ++ ys)) q ↔
    Start a (xs ++ b :: ys) q ∨ wanted + 80 < b.size ∧ q = a + extent xs + 48 + wanted := by
  simp only [start_append, start_cons, extent_carve]
  unfold carve
  split_ifs with hlarge
  · simp only [start_cons, not_start_nil, Nat.add_assoc (a + extent xs) 48 b.size]
    tauto
  · simp only [start_cons, not_start_nil, Nat.add_assoc (a + extent xs) 48 b.size]
    tauto

/-- The starts of blocks after two were merged. -/
theorem start_merge {free : Bool} (hq : Start a (xs ++ b :: c :: ys) q)
    (hne : q ≠ a + extent xs + 48 + b.size) :
    Start a (xs ++ ⟨b.size + (48 + c.size), free⟩ :: ys) q := by
  have haddr : a + extent xs + 48 + (b.size + (48 + c.size)) = a + extent xs + 48 + b.size + 48 +
      c.size := by
    omega
  simp only [start_append, start_cons, haddr] at hq ⊢
  tauto

theorem Rep.magicIn_taken (hrep : Rep h (xs ++ b :: ys)) (hwhole : ¬ Whole h) (hfit : Fits wanted b)
    (hdvd : 16 ∣ wanted) (hmem : MagicIn h.mem (Placed h.heapBase h.heapEnd (xs ++ b :: ys))) :
    MagicIn (taken h (h.heapBase + extent xs) wanted).mem
      (Placed h.heapBase h.heapEnd (xs ++ (carve wanted b ++ ys))) := by
  have hsmall := hrep.small hwhole b (List.mem_append_right _ List.mem_cons_self)
  have hle := hfit.2
  rw [taken, hrep.splitIfUseful_eq hle (by omega) hdvd]
  split_ifs with hlarge
  · have hsplit := hrep.magicIn_split hlarge hdvd hmem
    refine (hsplit.setFree hrep.header_fits hrep.dvd_addr false).mono fun q hq hlo hhi => ?_
    rw [start_carve_iff]
    rcases hq with hq | rfl
    · exact Or.inl (hq hlo hhi)
    · exact Or.inr ⟨hlarge, rfl⟩
  · refine (hmem.setFree hrep.header_fits hrep.dvd_addr false).mono fun q hq hlo hhi => ?_
    rw [start_carve_iff]
    exact Or.inl (hq hlo hhi)

theorem Rep.placed_merge (hrep : Rep h (xs ++ b :: c :: ys))
    (hmem : MagicIn h.mem (Placed h.heapBase h.heapEnd (xs ++ b :: c :: ys))) :
    MagicIn (Kmem.merge h (h.heapBase + extent xs) (h.heapBase + extent xs + 48 + b.size)).mem
      (Placed (Kmem.merge h (h.heapBase + extent xs)
        (h.heapBase + extent xs + 48 + b.size)).heapBase
        (Kmem.merge h (h.heapBase + extent xs) (h.heapBase + extent xs + 48 + b.size)).heapEnd
        (xs ++ ⟨b.size + (48 + c.size), b.free⟩ :: ys)) := by
  have hsame := sameGlobals_merge h (h.heapBase + extent xs) (h.heapBase + extent xs + 48 + b.size)
  rw [hsame.heapBase, hsame.heapEnd]
  exact (hrep.magicIn_merge hmem).mono fun q hq hlo hhi => start_merge (hq.1 hlo hhi) hq.2

/-! ## Calls -/

section Calls

variable (hrep : Rep h bs) (hwhole : ¬ Whole h) (hclean : NoStray h)
include hrep hclean

include hwhole in
theorem Rep.noStray_alloc (hrun : alloc n h = some (p, h')) : NoStray h' := by
  rcases hrep.alloc_cases n with ⟨hnone, -⟩ | ⟨xs, b, ys, rfl, hne, hfit, hrun'⟩
  · obtain ⟨-, rfl⟩ := Prod.mk.inj (Option.some.inj (hnone.symm.trans hrun))
    exact hclean
  · obtain ⟨-, rfl⟩ := Prod.mk.inj (Option.some.inj (hrun'.symm.trans hrun))
    have hsame := sameGlobals_taken h (h.heapBase + extent xs) (alignUpSize n align)
    rw [(hrep.take_of_fits hwhole hfit hne (dvd_alignUpSize n)).noStray_iff, hsame.heapBase,
      hsame.heapEnd]
    exact hrep.magicIn_taken hwhole hfit (dvd_alignUpSize n) (hrep.noStray_iff.mp hclean)

include hwhole in
theorem Rep.noStray_calloc {count bytes : ℕ} (hrun : calloc count bytes h = some (p, h')) :
    NoStray h' := by
  rcases hrep.calloc_cases count bytes with ⟨hnone, -⟩ | ⟨xs, b, ys, rfl, hne, hfit, hrun'⟩
  · obtain ⟨-, rfl⟩ := Prod.mk.inj (Option.some.inj (hnone.symm.trans hrun))
    exact hclean
  · obtain ⟨-, rfl⟩ := Prod.mk.inj (Option.some.inj (hrun'.symm.trans hrun))
    have hdvd := dvd_alignUpSize (count * bytes)
    have hsame := sameGlobals_taken h (h.heapBase + extent xs) (alignUpSize (count * bytes) align)
    have hcleared :=
      (hrep.take_of_fits hwhole hfit hne hdvd).cleared hsame.heapBase hfit.2 (le_alignUpSize hne)
    have haddr := hrep.dvd_addr
    have hsame' := hsame.trans (sameGlobals_cleared _ (h.heapBase + extent xs + 48) (count * bytes))
    rw [hcleared.noStray_iff, hsame'.heapBase, hsame'.heapEnd]
    exact (hrep.magicIn_taken hwhole hfit hdvd (hrep.noStray_iff.mp hclean)).fill_zero (by omega)

/-- A pointer to an allocated block is accepted. -/
theorem Rep.freeChecked_payload (hb : IsPayload h.heapBase bs p b) :
    ∃ xs ys rc h', bs = xs ++ b :: ys ∧ p = h.heapBase + extent xs + 48 ∧
      freeChecked p h = some (rc, h') ∧ Rep h' (release xs b ys) ∧ NoStray h' := by
  obtain ⟨xs, ys, rfl, rfl⟩ := hb.split
  have hmarked : MagicIn (h.setFree (h.heapBase + extent xs) 1).mem
      (Placed h.heapBase h.heapEnd (xs ++ ⟨b.size, true⟩ :: ys)) := by
    refine ((hrep.noStray_iff.mp hclean).setFree hrep.header_fits hrep.dvd_addr true).mono ?_
    intro q hq hlo hhi
    have hstart := hq hlo hhi
    rw [start_append, start_cons] at hstart ⊢
    exact hstart
  obtain ⟨h', hrun, -, hrep', hmem⟩ := hrep.freeChecked_eq
    (J := fun h bs => MagicIn h.mem (Placed h.heapBase h.heapEnd bs)) Rep.placed_merge
      hb.used hmarked
  exact ⟨xs, ys, _, h', rfl, rfl, hrun, hrep', hrep'.noStray_iff.mpr hmem⟩

/-- All pointers that the clients do not hold are refused. -/
theorem Rep.freeChecked_other (hheld : Held h.heapBase bs live) (hp : p < 2 ^ 64) (hne : p ≠ 0)
    (hnot : ∀ l ∈ live, l.1 ≠ p) : ∃ rc < 0, freeChecked p h = some (rc, h) := by
  unfold freeChecked
  dsimp only
  rw [if_neg hne]
  by_cases hin : ptrInHeap h p = false
  · rw [if_pos hin]
    exact ⟨-1, by decide, rfl⟩
  rw [if_neg hin]
  by_cases halign : p &&& (align - 1) ≠ 0
  · rw [if_pos halign]
    exact ⟨-2, by decide, rfl⟩
  rw [if_neg halign]
  by_cases hmagic :
    ptrInHeap h (headerFromPayload p) = false ∨ h.magicOf (headerFromPayload p) ≠ magic
  · rw [if_pos hmagic]
    exact ⟨-3, by decide, rfl⟩
  rw [if_neg hmagic]
  by_cases hfree : h.freeOf (headerFromPayload p) ≠ 0
  · rw [if_pos hfree]
    exact ⟨-4, by decide, rfl⟩
  -- the header is one of the list, of an allocated block, so that a client holds the pointer
  exfalso
  obtain ⟨hblock, hmagic⟩ := not_or.mp hmagic
  have hdvd : 16 ∣ p := by
    have hmod : p &&& (2 ^ 4 - 1) = p % 2 ^ 4 := Nat.and_two_pow_sub_one_eq_mod p 4
    have hzero : p &&& (2 ^ 4 - 1) = 0 := not_not.mp halign
    omega
  have hbounds : h.heapBase ≤ headerFromPayload p ∧ headerFromPayload p < h.heapEnd := by
    simpa [ptrInHeap, hrep.initialized] using hblock
  have hheader : headerFromPayload p = (p + (2 ^ 64 - 48)) % 2 ^ 64 := rfl
  have hlist := hclean _ hbounds.1 hbounds.2 (by omega) (not_not.mp hmagic)
  obtain ⟨b, hb⟩ := hrep.onList_iff.mp hlist
  obtain ⟨xs, ys, rfl, haddr⟩ := mem_positions.mp hb
  have hlast := hrep.bounds
  have hend := hrep.end_lt
  have hused : b.free = false := by
    rw [haddr, hrep.header.freeOf_eq hrep.header_fits, mark_ne_zero] at hfree
    exact Bool.eq_false_of_not_eq_true hfree
  obtain ⟨n, hn⟩ := hheld _ b hb hused
  exact hnot _ hn (by dsimp only; omega)

end Calls

/-! ## States of the heap -/

/-- The invariant of clients with any pointers. -/
structure Exact (x : Sys) (bs : List Blk) : Prop where
  inv : Inv x bs
  held : Held x.heap.heapBase bs x.live
  clean : NoStray x.heap

/-- A pointer is given back once. -/
theorem erase_eq_filter (hnodup : (live.map Prod.fst).Nodup) (hmem : (p, n) ∈ live) :
    live.erase (p, n) = live.filter fun l => l.1 ≠ p := by
  rw [(List.Nodup.of_map _ hnodup).erase_eq_filter]
  refine List.filter_congr fun l hl => ?_
  rw [Bool.eq_iff_iff, bne_iff_ne, decide_eq_true_iff]
  refine not_congr ⟨fun heq => heq ▸ rfl, fun hfst => ?_⟩
  exact List.inj_on_of_nodup_map hnodup hl hmem hfst

theorem Exact.of_step (hexact : Exact x bs) (hwhole : ¬ Whole x.heap) (hstep : Step x y)
    (hclean : NoStray y.heap) : SameGlobals x.heap y.heap ∧ ∃ bs', Exact y bs' := by
  obtain ⟨hsame, bs', hinv, heffect⟩ := hexact.inv.step hwhole hstep
  refine ⟨hsame, bs', hinv, ?_, hclean⟩
  rw [hsame.heapBase]
  exact hexact.held.step heffect

/-- Steps keep the invariant. -/
theorem Exact.step (hexact : Exact x bs) (hwhole : ¬ Whole x.heap) (hstep : AnyStep x y) :
    SameGlobals x.heap y.heap ∧ ∃ bs', Exact y bs' := by
  cases hstep with
  | alloc hn hrun =>
      exact hexact.of_step hwhole (.alloc hn hrun)
        (hexact.inv.rep.noStray_alloc hwhole hexact.clean hrun)
  | calloc hcount hbytes hrun =>
      exact hexact.of_step hwhole (.calloc hcount hbytes hrun)
        (hexact.inv.rep.noStray_calloc hwhole hexact.clean hrun)
  | @free p rc h hp hrun =>
      by_cases hlive : ∃ n, (p, n) ∈ x.live
      · obtain ⟨n, hlive⟩ := hlive
        obtain ⟨b, hb, -⟩ := hexact.inv.live _ hlive
        obtain ⟨xs, ys, rc', h', -, -, hrun', -, hclean⟩ :=
          hexact.inv.rep.freeChecked_payload hexact.clean hb
        obtain ⟨-, rfl⟩ := Prod.mk.inj (Option.some.inj (hrun.symm.trans hrun'))
        rw [← erase_eq_filter hexact.inv.nodup hlive]
        exact hexact.of_step hwhole (.free hlive hrun) hclean
      · -- nothing changes
        have hnot : ∀ l ∈ x.live, l.1 ≠ p := fun l hl heq => hlive ⟨l.2, heq ▸ hl⟩
        have hsame : h = x.heap := by
          by_cases hne : p = 0
          · rw [freeChecked, if_pos hne] at hrun
            exact (Prod.mk.inj (Option.some.inj hrun)).2.symm
          · obtain ⟨rc', -, hrun'⟩ :=
              hexact.inv.rep.freeChecked_other hexact.clean hexact.held hp hne hnot
            exact (Prod.mk.inj (Option.some.inj (hrun.symm.trans hrun'))).2
        have hfilter : (x.live.filter fun l => l.1 ≠ p) = x.live :=
          List.filter_eq_self.mpr fun l hl => decide_eq_true (hnot l hl)
        rw [hsame, hfilter]
        exact ⟨SameGlobals.refl _, bs, hexact⟩
  | write hlive ha hclean => exact hexact.of_step hwhole (.write hlive ha) hclean

/-- Reachable states satisfy the invariant. -/
theorem Exact.reach (hexact : Exact x bs) (hwhole : ¬ Whole x.heap)
    (hreach : Relation.ReflTransGen AnyStep x y) :
    SameGlobals x.heap y.heap ∧ ∃ bs', Exact y bs' := by
  induction hreach with
  | refl => exact ⟨SameGlobals.refl _, bs, hexact⟩
  | tail _ hstep ih =>
      obtain ⟨hsame, bs', hexact'⟩ := ih
      obtain ⟨hsame', hexact''⟩ := hexact'.step (fun hw => hwhole (hsame.whole_iff.mp hw)) hstep
      exact ⟨hsame.trans hsame', hexact''⟩

theorem Exact.freeExact (hexact : Exact x bs) : FreeExact x := by
  have hrep := hexact.inv.rep
  refine ⟨fun l hl => ?_, fun p hp hne hnot => ?_⟩
  · obtain ⟨b, hb, -⟩ := hexact.inv.live l hl
    obtain ⟨xs, ys, rc, h, rfl, haddr, hrun, hrep', -⟩ := hrep.freeChecked_payload hexact.clean hb
    exact ⟨xs, b, ys, rc, h, hrep, hb.used, haddr, hrun, hrep'⟩
  · exact hrep.freeChecked_other hexact.clean hexact.held hp hne hnot

/-- In the heap with all the memory the pointer to the only block is refused. -/
theorem whole_not_freeExact (mem : Memory) : ∃ x,
    Relation.ReflTransGen AnyStep ⟨fresh mem 16 (2 ^ 64 - 32), []⟩ x ∧ ¬ FreeExact x := by
  refine ⟨_, .single (.alloc (by decide) (alloc_whole mem)), fun hexact => ?_⟩
  obtain ⟨xs, b, ys, rc, h, hrep, -⟩ := hexact.live (64, wholeSize) List.mem_cons_self
  exact not_rep_overrun mem _ hrep

/-- For every arena that `kmem_init` accepts and leaves without a stray magic number: in all states
that can be reached, with any pointers for `kmem_free_checked`, it accepts the pointers of the
clients and refuses all others, just when the arena is not all of memory. -/
theorem freeExact_iff {base bytes : ℕ} {h₀ : Heap} (hbase : base < 2 ^ 64) (hbytes : bytes < 2 ^ 64)
    (hinit : (init base bytes h₀).1 = 0) (hclean : NoStray (init base bytes h₀).2) :
    (∀ x, Relation.ReflTransGen AnyStep ⟨(init base bytes h₀).2, []⟩ x → FreeExact x) ↔
      RealArena base bytes := by
  obtain ⟨start, usable, hheap, hend, -, -, hrep, hwhole⟩ := init_cases hbase hbytes hinit
  rw [hheap] at hclean
  rw [hheap, RealArena, ← hwhole]
  constructor
  · intro hall hw
    obtain ⟨rfl, rfl⟩ := (whole_fresh_iff hend).mp hw
    obtain ⟨x, hreach, hnot⟩ := whole_not_freeExact h₀.mem
    exact hnot (hall x hreach)
  · intro hw x hreach
    have hexact : Exact ⟨fresh h₀.mem start usable, []⟩ [⟨usable - 48, true⟩] :=
      ⟨inv_fresh hrep, held_fresh _ _, hclean⟩
    obtain ⟨-, bs, hexact'⟩ := hexact.reach hw hreach
    exact hexact'.freeExact

/-- Without the magic number in the memory there is none but the first header's. -/
theorem noStray_fresh {start usable : ℕ} (hmem : MagicIn mem fun _ => False)
    (hrep : Rep (fresh mem start usable) [⟨usable - 48, true⟩]) :
    NoStray (fresh mem start usable) := by
  have hfirst : Rep (fresh mem start usable) ([] ++ [⟨usable - 48, true⟩]) := hrep
  have hfits : start + 48 ≤ 2 ^ 64 := hfirst.header_fits
  have hdvd : 16 ∣ start := hrep.base_dvd
  have hfresh : MagicIn (fresh mem start usable).mem fun q => False ∨ q = start :=
    MagicIn.withHeader (h := ⟨mem, start, add64 start usable, start, true⟩) hmem hfits hdvd
      (Nat.dvd_zero 16)
  rw [hrep.noStray_iff]
  refine hfresh.mono fun q hq _ _ => start_cons.mpr (Or.inl ?_)
  exact hq.resolve_left id

theorem magicIn_zeros : MagicIn (fun _ => 0) fun _ => False := by
  intro q _ hq
  exact absurd (MagicIn.low_byte hq) (by decide)

/-- **`kmem_free_checked` accepts exactly the pointers of the clients.** -/
theorem free_checked_exact {base bytes : ℕ} {h₀ : Heap} (hbase : base < 2 ^ 64)
    (hbytes : bytes < 2 ^ 64) (harena : RealArena base bytes) (hinit : (init base bytes h₀).1 = 0)
    (hclean : NoStray (init base bytes h₀).2) {x : Sys}
    (hreach : Relation.ReflTransGen AnyStep ⟨(init base bytes h₀).2, []⟩ x) : FreeExact x :=
  (freeExact_iff hbase hbytes hinit hclean).mpr harena x hreach

theorem free_checked_exact_page :
    ∃ p h, alloc 100 (init 4096 4096 blankHeap).2 = some (p, h) ∧
      FreeExact ⟨h, record p 100 []⟩ := by
  have hinit : (init 4096 4096 blankHeap).1 = 0 := by decide
  have hreturns : Returns ⟨(init 4096 4096 blankHeap).2, []⟩ :=
    ((heap_safe_iff (by decide) (by decide) hinit).mpr (by decide) _ .refl).2.1
  obtain ⟨⟨p, h⟩, hrun⟩ := Option.isSome_iff_exists.mp (hreturns.alloc 100 (by decide))
  have hclean : NoStray (init 4096 4096 blankHeap).2 := by
    obtain ⟨start, usable, hheap, -, -, -, hrep, -⟩ := init_cases (by decide) (by decide) hinit
    rw [hheap]
    exact noStray_fresh magicIn_zeros hrep
  exact ⟨p, h, hrun, free_checked_exact (by decide) (by decide) (by decide) hinit hclean
    (.single (.alloc (by decide) hrun))⟩

end Mcsos.Kmem
