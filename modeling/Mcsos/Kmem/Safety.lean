import Mcsos.Kmem.AllocFree
import Mathlib.Data.List.Nodup
import Mathlib.Logic.Relation

/-!
# Safety of the heap

The clients of the heap hold pointers from `kmem_alloc` and `kmem_calloc`, give them back once, and
write to the payloads in between.  In every state that they can reach the blocks tile the heap, and
the payloads they hold do not overlap each other or a header.

`kmem_split_if_useful` adds the sizes of a header and of the smallest block to the size of the
request, and the sum overflows for a request of `2 ^ 64 - 80` bytes.  A block of that size is there
in one heap only, the one from address 16 to the last 16 bytes of memory.  A kernel that has its own
code and its stack in memory has no such arena (`RealArena`), and `heap_safe_iff` says that nothing
else is needed.
-/

namespace Mcsos.Kmem

open Memory

variable {h h' : Heap} {b c : Blk} {bs xs ys : List Blk} {p q n wanted : ℕ}

/-! ## Clients -/

/-- The heap, and the pointers that the clients hold with the numbers of bytes they asked for. -/
structure Sys where
  heap : Heap
  live : List (ℕ × ℕ)

/-- A pointer that was returned, if it is not null. -/
def record (p n : ℕ) (live : List (ℕ × ℕ)) : List (ℕ × ℕ) := if p = 0 then live else (p, n) :: live

theorem record_payload (a n : ℕ) (live : List (ℕ × ℕ)) :
    record (a + 48) n live = (a + 48, n) :: live :=
  if_neg (by omega)

/-- A call of the heap, or a write to a payload. -/
inductive Step (x : Sys) : Sys → Prop where
  | alloc {n p : ℕ} {h : Heap} (hn : n < 2 ^ 64) (hrun : alloc n x.heap = some (p, h)) :
      Step x ⟨h, record p n x.live⟩
  | calloc {count bytes p : ℕ} {h : Heap} (hcount : count < 2 ^ 64) (hbytes : bytes < 2 ^ 64)
      (hrun : calloc count bytes x.heap = some (p, h)) : Step x ⟨h, record p (count * bytes) x.live⟩
  | free {p n : ℕ} {rc : Int} {h : Heap} (hlive : (p, n) ∈ x.live)
      (hrun : freeChecked p x.heap = some (rc, h)) : Step x ⟨h, x.live.erase (p, n)⟩
  | write {p n a : ℕ} {v : UInt8} (hlive : (p, n) ∈ x.live)
      (ha : p ≤ a ∧ a < p + x.heap.sizeOf (headerFromPayload p)) :
      Step x ⟨{ x.heap with mem := Function.update x.heap.mem a v }, x.live⟩

/-- A client gets a pointer. -/
theorem Step.alloc_payload {live : List (ℕ × ℕ)} (hn : n < 2 ^ 64) (hp : p ≠ 0)
    (hrun : Kmem.alloc n h = some (p, h')) : Step ⟨h, live⟩ ⟨h', (p, n) :: live⟩ := by
  have hstep := Step.alloc (x := ⟨h, live⟩) hn hrun
  rw [record, if_neg hp] at hstep
  exact hstep

/-- A client gives back the only pointer. -/
theorem Step.free_last {rc : Int} (hrun : freeChecked p h = some (rc, h')) :
    Step ⟨h, [(p, n)]⟩ ⟨h', []⟩ := by
  have hstep := Step.free (x := ⟨h, [(p, n)]⟩) List.mem_cons_self hrun
  dsimp only at hstep
  rw [List.erase_cons_head] at hstep
  exact hstep

/-- The pointer `p` is to the payload of the allocated block `b`. -/
structure IsPayload (base : ℕ) (bs : List Blk) (p : ℕ) (b : Blk) : Prop where
  header_le : 48 ≤ p
  block : (p - 48, b) ∈ positions base bs
  used : b.free = false

/-- What is said about a state of the heap with the blocks `bs`. -/
structure Safe (x : Sys) (bs : List Blk) : Prop where
  rep : Rep x.heap bs
  live : ∀ l ∈ x.live, ∃ b, IsPayload x.heap.heapBase bs l.1 b ∧ 16 ∣ l.1 ∧ l.2 ≤ b.size ∧
    x.heap.heapBase ≤ l.1 ∧ l.1 + b.size ≤ x.heap.heapEnd ∧
    ∀ q c, (q, c) ∈ positions x.heap.heapBase bs → q + 48 ≤ l.1 ∨ l.1 + b.size ≤ q
  disjoint : x.live.Pairwise fun l l' => ∀ b b', IsPayload x.heap.heapBase bs l.1 b →
    IsPayload x.heap.heapBase bs l'.1 b' → l.1 + b.size ≤ l'.1 ∨ l'.1 + b'.size ≤ l.1

/-- The calls return. -/
structure Returns (x : Sys) : Prop where
  alloc : ∀ n < 2 ^ 64, (alloc n x.heap).isSome
  calloc : ∀ count < 2 ^ 64, ∀ bytes < 2 ^ 64, (calloc count bytes x.heap).isSome
  free : ∀ l ∈ x.live, (freeChecked l.1 x.heap).isSome

/-- The bytes from `kmem_calloc` are zero. -/
def CallocZero (x : Sys) : Prop :=
  ∀ count < 2 ^ 64, ∀ bytes < 2 ^ 64, ∀ p h, calloc count bytes x.heap = some (p, h) → p ≠ 0 →
    ∀ i < count * bytes, h.mem (p + i) = 0

/-! ## Blocks of the clients -/

/-- The invariant of the clients. -/
structure Inv (x : Sys) (bs : List Blk) : Prop where
  rep : Rep x.heap bs
  live : ∀ l ∈ x.live, ∃ b, IsPayload x.heap.heapBase bs l.1 b ∧ l.2 ≤ b.size
  nodup : (x.live.map Prod.fst).Nodup

/-- The block of a payload splits the list. -/
theorem IsPayload.split {base : ℕ} (h : IsPayload base bs p b) :
    ∃ xs ys, bs = xs ++ b :: ys ∧ p = base + extent xs + 48 := by
  obtain ⟨xs, ys, hbs, haddr⟩ := mem_positions.mp h.block
  have hheader := h.header_le
  exact ⟨xs, ys, hbs, by omega⟩

theorem IsPayload.eq_of_mem {base : ℕ} (h : IsPayload base bs (q + 48) c)
    (hb : (q, b) ∈ positions base bs) :
    c = b := by
  have hc := h.block
  rw [Nat.add_sub_cancel] at hc
  rcases positions_disjoint hc hb with ⟨-, heq⟩ | hlt | hlt
  · exact heq
  · omega
  · omega

theorem Inv.safe {x : Sys} (h : Inv x bs) : Safe x bs := by
  have hdvd : ∀ {q : ℕ} {b : Blk}, (q, b) ∈ positions x.heap.heapBase bs → 16 ∣ q := by
    intro q b hq
    obtain ⟨xs, ys, rfl, rfl⟩ := mem_positions.mp hq
    exact h.rep.dvd_addr
  have htile := h.rep.tile
  refine ⟨h.rep, fun l hl => ?_, ?_⟩
  · obtain ⟨b, hb, hn⟩ := h.live l hl
    have hle := hb.header_le
    have hpos := le_of_mem_positions hb.block
    have hdvd' := hdvd hb.block
    refine ⟨b, hb, by omega, hn, by omega, by omega, fun q c hq => ?_⟩
    rcases positions_disjoint hb.block hq with ⟨heq, -⟩ | hlt | hlt
    · exact Or.inl (by omega)
    · exact Or.inr (by omega)
    · exact Or.inl (by omega)
  · refine (List.pairwise_map.mp h.nodup).imp fun {l l'} hne b b' hb hb' => ?_
    have hle := hb.header_le
    have hle' := hb'.header_le
    rcases positions_disjoint hb.block hb'.block with ⟨heq, -⟩ | hlt | hlt
    · exact absurd (by omega : l.1 = l'.1) hne
    · exact Or.inl (by omega)
    · exact Or.inr (by omega)

/-- A change inside of a payload. -/
theorem Rep.write (hrep : Rep h (xs ++ b :: ys)) {mem : Memory}
    (hout : ∀ i, i < h.heapBase + extent xs + 48 ∨ h.heapBase + extent xs + 48 + b.size ≤ i →
      mem i = h.mem i) : Rep { h with mem := mem } (xs ++ b :: ys) := by
  refine hrep.replace ⟨rfl, rfl, rfl, rfl⟩ (List.cons_ne_nil _ _) (List.cons_ne_nil _ _) rfl
    (sizesOk_append.mp hrep.sizes).2 ?_ ⟨hrep.header.congr ?_, hrep.rest.congr ?_⟩
  · exact fun i _ hi => hout i (Or.inl (by omega))
  · exact fun i _ hi => hout i (Or.inl (by omega))
  · exact fun i hi _ => hout i (Or.inr hi)

/-! ## Allocating -/

theorem carve_eq_cons (hfit : wanted ≤ b.size) :
    ∃ size rest, carve wanted b = ⟨size, false⟩ :: rest ∧ wanted ≤ size := by
  unfold carve
  split_ifs
  · exact ⟨wanted, _, rfl, Nat.le_refl _⟩
  · exact ⟨b.size, [], rfl, hfit⟩

theorem extent_carve (wanted : ℕ) (b : Blk) : extent (carve wanted b) = 48 + b.size := by
  unfold carve
  split_ifs
  · simp only [extent]
    omega
  · rfl

/-- Allocated blocks stay where they are when another block is taken. -/
theorem mem_positions_carve {a : ℕ} (hb : b.free = true) (hc : c.free = false)
    (h : (q, c) ∈ positions a (xs ++ b :: ys)) :
    (q, c) ∈ positions a (xs ++ (carve wanted b ++ ys)) := by
  rw [positions_append] at h ⊢
  rcases List.mem_append.mp h with hbefore | hafter
  · exact List.mem_append_left _ hbefore
  · rcases List.mem_cons.mp hafter with heq | hafter
    · obtain ⟨-, rfl⟩ := Prod.mk.inj heq
      rw [hb] at hc
      cases hc
    · refine List.mem_append_right _ ?_
      rw [positions_append, extent_carve, ← Nat.add_assoc]
      exact List.mem_append_right _ hafter

/-- A block is taken for a client. -/
theorem Inv.take {x : Sys} (hinv : Inv x (xs ++ b :: ys)) (hfit : Fits wanted b) (hn : n ≤ wanted)
    (hbase : h.heapBase = x.heap.heapBase) (hrep : Rep h (xs ++ (carve wanted b ++ ys))) :
    Inv ⟨h, record (x.heap.heapBase + extent xs + 48) n x.live⟩ (xs ++ (carve wanted b ++ ys)) := by
  obtain ⟨size, rest, hcarve, hsize⟩ := carve_eq_cons hfit.2
  have hposition : (x.heap.heapBase + extent xs, b) ∈ positions x.heap.heapBase (xs ++ b :: ys) :=
    mem_positions.mpr ⟨xs, ys, rfl, rfl⟩
  rw [record_payload]
  refine ⟨hrep, fun l hl => ?_, ?_⟩
  · rw [hbase]
    rcases List.mem_cons.mp hl with rfl | hl
    · refine ⟨⟨size, false⟩, ⟨Nat.le_add_left _ _, ?_, rfl⟩, Nat.le_trans hn hsize⟩
      show (x.heap.heapBase + extent xs + 48 - 48, _) ∈ _
      rw [Nat.add_sub_cancel, hcarve]
      exact mem_positions.mpr ⟨xs, rest ++ ys, rfl, rfl⟩
    · obtain ⟨c, hc, hle⟩ := hinv.live l hl
      exact ⟨c, ⟨hc.header_le, mem_positions_carve hfit.1 hc.used hc.block, hc.used⟩, hle⟩
  · refine List.nodup_cons.mpr ⟨fun hmem => ?_, hinv.nodup⟩
    obtain ⟨l, hl, heq⟩ := List.mem_map.mp hmem
    obtain ⟨c, hc, -⟩ := hinv.live l hl
    rw [heq] at hc
    have hused := hc.used
    rw [hc.eq_of_mem hposition, hfit.1] at hused
    cases hused

/-! ## Freeing -/

/-- The allocated blocks after one was freed are the ones before and after it. -/
theorem mem_positions_release_iff {a : ℕ} (hc : c.free = false) :
    (q, c) ∈ positions a (release xs b ys) ↔
      (q, c) ∈ positions a xs ∨ (q, c) ∈ positions (a + extent xs + 48 + b.size) ys := by
  have hafter : ∀ p, (q, c) ∈ positions p (absorb ⟨b.size, true⟩ ys) ↔
      (q, c) ∈ positions (p + 48 + b.size) ys := fun p =>
    mem_positions_absorb_iff (show (⟨b.size, true⟩ : Blk).free = true from rfl) hc
  rcases release_cases xs b ys with ⟨-, heq⟩ | ⟨ws, d, rfl, hd, heq⟩
  · rw [heq, positions_append, List.mem_append, hafter]
  · have haddr : a + extent ws + 48 + d.size = a + extent (ws ++ [d]) := by
      rw [extent_concat]
      omega
    have hlast : (q, c) ∈ positions a (ws ++ [d]) ↔ (q, c) ∈ positions a ws := by
      rw [positions_append, List.mem_append]
      exact or_iff_left (not_mem_singleton_of_free hd hc)
    rw [heq, positions_append, List.mem_append, mem_positions_absorb_iff hd hc, hafter,
      haddr, hlast]

/-- Allocated blocks stay where they are when another block is freed. -/
theorem mem_positions_release {a : ℕ} (hc : c.free = false)
    (h : (q, c) ∈ positions a (xs ++ b :: ys)) (hne : q ≠ a + extent xs) :
    (q, c) ∈ positions a (release xs b ys) := by
  rw [mem_positions_release_iff hc]
  rw [positions_append] at h
  rcases List.mem_append.mp h with hbefore | hafter
  · exact Or.inl hbefore
  · rcases List.mem_cons.mp hafter with heq | hafter
    · exact absurd (Prod.mk.inj heq).1 hne
    · exact Or.inr hafter

/-- A client gives a block back. -/
theorem Inv.release {x : Sys} (hinv : Inv x (xs ++ b :: ys))
    (hlive : (x.heap.heapBase + extent xs + 48, n) ∈ x.live) (hbase : h.heapBase = x.heap.heapBase)
    (hrep : Rep h (release xs b ys)) :
    Inv ⟨h, x.live.erase (x.heap.heapBase + extent xs + 48, n)⟩ (release xs b ys) := by
  refine ⟨hrep, fun l hl => ?_, (hinv.nodup.sublist (List.erase_sublist.map _))⟩
  have hnodup : x.live.Nodup := List.Nodup.of_map _ hinv.nodup
  obtain ⟨hdiff, hmem⟩ := (hnodup.mem_erase_iff).mp hl
  obtain ⟨c, hc, hle⟩ := hinv.live l hmem
  have hptr : l.1 ≠ x.heap.heapBase + extent xs + 48 := fun heq =>
    hdiff (List.inj_on_of_nodup_map hinv.nodup hmem hlive heq)
  have hheader := hc.header_le
  refine ⟨c, ⟨hheader, ?_, hc.used⟩, hle⟩
  rw [hbase]
  exact mem_positions_release hc.used hc.block (by omega)

/-! ## Steps -/

/-- The heap from address 16 to the last 16 bytes of memory. -/
def Whole (h : Heap) : Prop := h.heapBase = 16 ∧ h.heapEnd = 2 ^ 64 - 16

theorem SameGlobals.whole_iff (hsame : SameGlobals h h') : Whole h' ↔ Whole h := by
  rw [Whole, Whole, hsame.heapBase, hsame.heapEnd]

/-- No request overflows, except in the heap that has all the memory. -/
theorem Rep.small (hrep : Rep h bs) (hwhole : ¬ Whole h) : ∀ b ∈ bs, b.size + 80 < 2 ^ 64 := by
  intro b hb
  obtain ⟨xs, ys, rfl⟩ := List.append_of_mem hb
  have hbounds := hrep.bounds
  have hend := hrep.end_lt
  have hbase := hrep.base_pos
  have hdvd := hrep.base_dvd
  have hextent := hrep.sizes.extent
  have htile := hrep.tile
  unfold Whole at hwhole
  omega

theorem Rep.take_of_fits (hrep : Rep h (xs ++ b :: ys)) (hwhole : ¬ Whole h) (hfit : Fits wanted b)
    (hne : wanted ≠ 0) (hdvd : 16 ∣ wanted) :
    Rep (taken h (h.heapBase + extent xs) wanted) (xs ++ (carve wanted b ++ ys)) := by
  have hsmall := hrep.small hwhole b (List.mem_append_right _ List.mem_cons_self)
  have hle := hfit.2
  exact hrep.take hle (by omega) (Nat.pos_of_ne_zero hne) hdvd

/-- Clearing the payload of a new block. -/
theorem Rep.cleared {base : ℕ} (hrep : Rep h (xs ++ (carve wanted b ++ ys)))
    (hbase : h.heapBase = base) (hfit : wanted ≤ b.size) (hn : n ≤ wanted) :
    Rep (cleared h (base + extent xs + 48) n) (xs ++ (carve wanted b ++ ys)) := by
  obtain ⟨size, rest, hcarve, hsize⟩ := carve_eq_cons hfit
  rw [hcarve, List.cons_append] at hrep ⊢
  refine hrep.write fun i hi => ?_
  rw [hbase] at hi
  rw [fill_apply, if_neg (by dsimp only at hi; omega)]

/-- What a step does to the blocks, and to the pointers that the clients hold. -/
inductive Effect (base : ℕ) : List Blk → List (ℕ × ℕ) → List Blk → List (ℕ × ℕ) → Prop where
  | keep (bs : List Blk) (live : List (ℕ × ℕ)) : Effect base bs live bs live
  | take {xs ys : List Blk} {b : Blk} {live : List (ℕ × ℕ)} {wanted n : ℕ} (hfit : Fits wanted b) :
      Effect base (xs ++ b :: ys) live (xs ++ (carve wanted b ++ ys))
        ((base + extent xs + 48, n) :: live)
  | release {xs ys : List Blk} {b : Blk} {live : List (ℕ × ℕ)} {n : ℕ} (hused : b.free = false)
      (hlive : (base + extent xs + 48, n) ∈ live) :
      Effect base (xs ++ b :: ys) live (release xs b ys) (live.erase (base + extent xs + 48, n))

section Steps

variable {x : Sys} (hinv : Inv x bs) (hwhole : ¬ Whole x.heap)
include hinv hwhole

theorem Inv.alloc (n : ℕ) :
    ∃ p h bs', alloc n x.heap = some (p, h) ∧ SameGlobals x.heap h ∧
      Inv ⟨h, record p n x.live⟩ bs' ∧
      Effect x.heap.heapBase bs x.live bs' (record p n x.live) := by
  rcases hinv.rep.alloc_cases n with ⟨hnone, -⟩ | ⟨xs, b, ys, rfl, hne, hfit, hrun⟩
  · exact ⟨0, x.heap, bs, hnone, SameGlobals.refl _, hinv, Effect.keep _ _⟩
  · have hsame := sameGlobals_taken x.heap (x.heap.heapBase + extent xs) (alignUpSize n align)
    have hrep := hinv.rep.take_of_fits hwhole hfit hne (dvd_alignUpSize n)
    refine ⟨_, _, _, hrun, hsame, hinv.take hfit (le_alignUpSize hne) hsame.heapBase hrep, ?_⟩
    rw [record_payload]
    exact Effect.take hfit

theorem Inv.calloc (count bytes : ℕ) :
    ∃ p h bs', calloc count bytes x.heap = some (p, h) ∧ SameGlobals x.heap h ∧
      Inv ⟨h, record p (count * bytes) x.live⟩ bs' ∧
      Effect x.heap.heapBase bs x.live bs' (record p (count * bytes) x.live) ∧
      (p ≠ 0 → ∀ i < count * bytes, h.mem (p + i) = 0) := by
  rcases hinv.rep.calloc_cases count bytes with ⟨hnone, -⟩ | ⟨xs, b, ys, rfl, hne, hfit, hrun⟩
  · exact ⟨0, x.heap, bs, hnone, SameGlobals.refl _, hinv, Effect.keep _ _, fun hne =>
      absurd rfl hne⟩
  · have hsame :=
      sameGlobals_taken x.heap (x.heap.heapBase + extent xs) (alignUpSize (count * bytes) align)
    have hrep := hinv.rep.take_of_fits hwhole hfit hne (dvd_alignUpSize (count * bytes))
    have hle := le_alignUpSize hne
    -- the bytes are in the payload of the new block
    have hcleared := hrep.cleared hsame.heapBase hfit.2 hle
    have hall :=
      hsame.trans (sameGlobals_cleared _ (x.heap.heapBase + extent xs + 48) (count * bytes))
    have htaken := hinv.take hfit hle hall.heapBase hcleared
    refine ⟨_, _, _, hrun, hall, htaken, ?_, fun _ i hi => ?_⟩
    · rw [record_payload]
      exact Effect.take hfit
    · exact (fill_apply ..).trans (if_pos (by omega))

omit hwhole in
theorem Inv.free (hlive : (p, n) ∈ x.live) :
    ∃ rc h bs', freeChecked p x.heap = some (rc, h) ∧ SameGlobals x.heap h ∧
      Inv ⟨h, x.live.erase (p, n)⟩ bs' ∧
      Effect x.heap.heapBase bs x.live bs' (x.live.erase (p, n)) := by
  obtain ⟨b, hb, -⟩ := hinv.live (p, n) hlive
  obtain ⟨xs, ys, rfl, rfl⟩ := hb.split
  obtain ⟨h, hrun, hsame, hrep, -⟩ :=
    hinv.rep.freeChecked_eq (J := fun _ _ => True) (fun _ _ => trivial) hb.used
    trivial
  exact ⟨_, h, _, hrun, hsame, hinv.release hlive hsame.heapBase hrep, Effect.release hb.used hlive⟩

omit hwhole in
theorem Inv.write {a : ℕ} {v : UInt8} (hlive : (p, n) ∈ x.live)
    (ha : p ≤ a ∧ a < p + x.heap.sizeOf (headerFromPayload p)) :
    Inv ⟨{ x.heap with mem := Function.update x.heap.mem a v }, x.live⟩ bs := by
  obtain ⟨b, hb, -⟩ := hinv.live (p, n) hlive
  obtain ⟨xs, ys, rfl, rfl⟩ := hb.split
  have hrep := hinv.rep
  rw [hrep.headerFromPayload_eq, hrep.header.sizeOf_eq hrep.header_fits] at ha
  refine ⟨hrep.write fun i hi => Function.update_of_ne (by omega) .., hinv.live, hinv.nodup⟩

end Steps

/-- Steps keep the invariant. -/
theorem Inv.step {x y : Sys} (hinv : Inv x bs) (hwhole : ¬ Whole x.heap) (hstep : Step x y) :
    SameGlobals x.heap y.heap ∧ ∃ bs', Inv y bs' ∧ Effect x.heap.heapBase bs x.live bs' y.live := by
  cases hstep with
  | alloc _ hrun =>
      obtain ⟨p, h, bs', hrun', hsame, hinv'⟩ := hinv.alloc hwhole _
      obtain ⟨rfl, rfl⟩ := Prod.mk.inj (Option.some.inj (hrun.symm.trans hrun'))
      exact ⟨hsame, bs', hinv'⟩
  | calloc _ _ hrun =>
      obtain ⟨p, h, bs', hrun', hsame, hinv', heffect, -⟩ := hinv.calloc hwhole _ _
      obtain ⟨rfl, rfl⟩ := Prod.mk.inj (Option.some.inj (hrun.symm.trans hrun'))
      exact ⟨hsame, bs', hinv', heffect⟩
  | free hlive hrun =>
      obtain ⟨rc, h, bs', hrun', hsame, hinv'⟩ := hinv.free hlive
      obtain ⟨rfl, rfl⟩ := Prod.mk.inj (Option.some.inj (hrun.symm.trans hrun'))
      exact ⟨hsame, bs', hinv'⟩
  | write hlive ha => exact ⟨⟨rfl, rfl, rfl, rfl⟩, bs, hinv.write hlive ha, Effect.keep _ _⟩

/-- Reachable states satisfy the invariant, together with what the effects of the steps preserve. -/
theorem Inv.reach {x y : Sys} {J : List Blk → List (ℕ × ℕ) → Prop}
    (hJ : ∀ {bs live bs' live'}, Effect x.heap.heapBase bs live bs' live' → J bs live → J bs' live')
    (hinv : Inv x bs) (hstart : J bs x.live) (hwhole : ¬ Whole x.heap)
    (hreach : Relation.ReflTransGen Step x y) :
    SameGlobals x.heap y.heap ∧ ∃ bs', Inv y bs' ∧ J bs' y.live := by
  induction hreach with
  | refl => exact ⟨SameGlobals.refl _, bs, hinv, hstart⟩
  | tail _ hstep ih =>
      obtain ⟨hsame, bs', hinv', hkept⟩ := ih
      obtain ⟨hsame', bs'', hinv'', heffect⟩ :=
        hinv'.step (fun hw => hwhole (hsame.whole_iff.mp hw)) hstep
      rw [hsame.heapBase] at heffect
      exact ⟨hsame.trans hsame', bs'', hinv'', hJ heffect hkept⟩

/-- What holds of a state: its blocks and payloads are safe, and the calls return. -/
def HeapSafe (x : Sys) : Prop := (∃ bs, Safe x bs) ∧ Returns x ∧ CallocZero x

theorem Inv.heapSafe {x : Sys} (hinv : Inv x bs) (hwhole : ¬ Whole x.heap) : HeapSafe x := by
  refine ⟨⟨bs, hinv.safe⟩, ⟨fun n _ => ?_, fun count _ bytes _ => ?_, fun l hl => ?_⟩, ?_⟩
  · obtain ⟨p, h, -, hrun, -⟩ := hinv.alloc hwhole n
    rw [hrun, Option.isSome_some]
  · obtain ⟨p, h, -, hrun, -⟩ := hinv.calloc hwhole count bytes
    rw [hrun, Option.isSome_some]
  · obtain ⟨rc, h, -, hrun, -⟩ := hinv.free hl
    rw [hrun, Option.isSome_some]
  · intro count _ bytes _ p h hrun hne
    obtain ⟨p', h', -, hrun', -, -, -, hzero⟩ := hinv.calloc hwhole count bytes
    obtain ⟨rfl, rfl⟩ := Prod.mk.inj (Option.some.inj (hrun.symm.trans hrun'))
    exact hzero hne

/-! ## The first state -/

/-- A heap that `kmem_init` accepts. -/
theorem rep_fresh {mem : Memory} {start usable : ℕ} (hpos : 0 < start) (hstart : 16 ∣ start)
    (husable : 16 ∣ usable) (hsize : 80 < usable) (hend : start + usable < 2 ^ 64) :
    Rep (fresh mem start usable) [⟨usable - 48, true⟩] := by
  have hsub : sub64 usable headerSize = usable - 48 :=
    sub64_eq (by unfold headerSize; omega) (by omega)
  have hadd : add64 start usable = start + usable := add64_eq hend
  have hfresh : fresh mem start usable =
      withHeader ⟨mem, start, start + usable, start, true⟩ start (usable - 48) 0 0 := by
    rw [fresh, hsub, hadd]
    rfl
  rw [hfresh]
  refine ⟨rfl, rfl, hpos, hstart, hend, List.cons_ne_nil _ _, ?_, ?_, ?_⟩
  · show start + (48 + (usable - 48) + 0) = start + usable
    omega
  · refine sizesOk_cons.mpr ⟨⟨?_, ?_⟩, fun b hb => absurd hb List.not_mem_nil⟩
    · show 0 < usable - 48
      omega
    · show 16 ∣ usable - 48
      omega
  · exact ⟨header_new (by omega) _ (by omega) (by omega) (by omega), trivial⟩

/-- The bounds of the heap after `kmem_init` has returned 0. -/
theorem init_eq {base bytes : ℕ} (hbase : base < 2 ^ 64) (hbytes : bytes < 2 ^ 64)
    (hinit : (init base bytes h).1 = 0) :
    ∃ start usable, (init base bytes h).2 = fresh h.mem start usable ∧ 0 < start ∧
      start = (base + 15) / 16 * 16 ∧ usable = (bytes - (start - base)) / 16 * 16 ∧ 80 < usable ∧
      start + usable < 2 ^ 64 := by
  unfold init at hinit ⊢
  dsimp only at hinit ⊢
  by_cases hargs : base = 0 ∨ bytes < headerSize + minSplit
  · rw [if_pos hargs] at hinit
    exact absurd hinit (by decide : (-1 : Int) ≠ 0)
  rw [if_neg hargs] at hinit ⊢
  by_cases hhigh : 2 ^ 64 - 16 < base
  · rw [if_pos (Or.inl (alignUpPtr_eq_zero hhigh))] at hinit
    exact absurd hinit (by decide : (-2 : Int) ≠ 0)
  have hbase0 : base ≠ 0 := fun heq => hargs (Or.inl heq)
  have hbytes80 : ¬ bytes < 80 := fun hlt => hargs (Or.inr hlt)
  rw [alignUpPtr_eq (Nat.not_lt.mp hhigh)] at hinit ⊢
  generalize hstart : (base + 15) / 16 * 16 = start at hinit ⊢
  have hlost : sub64 start base = start - base := sub64_eq (by omega) (by omega)
  have hmargin : add64 (start - base) (headerSize + minSplit) = start - base + 80 :=
    add64_eq (by unfold headerSize minSplit; omega)
  have husable : sub64 bytes (start - base) &&& (2 ^ 64 - 1 - (align - 1)) =
      (bytes - (start - base)) / 16 * 16 := by
    rw [sub64_eq (by omega) hbytes]
    exact align_and_mask (by omega)
  rw [if_neg (by omega), hlost, hmargin, husable] at hinit ⊢
  by_cases hmin : bytes ≤ start - base + 80
  · rw [if_pos hmin] at hinit
    exact absurd hinit (by decide : (-3 : Int) ≠ 0)
  rw [if_neg hmin] at hinit ⊢
  generalize husable' : (bytes - (start - base)) / 16 * 16 = usable at hinit ⊢
  by_cases hsmall : usable ≤ headerSize + minSplit
  · rw [if_pos hsmall] at hinit
    exact absurd hinit (by decide : (-4 : Int) ≠ 0)
  rw [if_neg hsmall] at hinit ⊢
  -- `kmem_validate` refuses a heap that ends before it starts
  have hend : start < add64 start usable := by
    by_contra hwrap
    have hbad : (fresh h.mem start usable).initialized = false ∨
        (fresh h.mem start usable).heapBase = 0 ∨ (fresh h.mem start usable).heapEnd ≤
        (fresh h.mem start usable).heapBase ∨ (fresh h.mem start usable).head = 0 :=
      Or.inr (Or.inr (Or.inl (Nat.not_lt.mp hwrap)))
    dsimp only at hinit
    rw [validate, if_pos hbad] at hinit
    exact absurd hinit (by decide)
  have hsize : 80 < usable := Nat.not_le.mp hsmall
  refine ⟨start, usable, rfl, by omega, rfl, husable'.symm, hsize, ?_⟩
  unfold add64 at hend
  omega

section Fresh

variable {mem : Memory} {start usable : ℕ}

theorem whole_fresh_iff (hend : start + usable < 2 ^ 64) :
    Whole (fresh mem start usable) ↔ start = 16 ∧ usable = 2 ^ 64 - 32 := by
  show start = 16 ∧ add64 start usable = 2 ^ 64 - 16 ↔ _
  rw [add64_eq hend]
  omega

theorem inv_fresh (hrep : Rep (fresh mem start usable) [⟨usable - 48, true⟩]) :
    Inv ⟨fresh mem start usable, []⟩ [⟨usable - 48, true⟩] :=
  ⟨hrep, fun _ hl => absurd hl List.not_mem_nil, List.nodup_nil⟩

end Fresh

/-- The first state of the clients, for every arena that `kmem_init` accepts. -/
theorem init_cases {base bytes : ℕ} (hbase : base < 2 ^ 64) (hbytes : bytes < 2 ^ 64)
    (hinit : (init base bytes h).1 = 0) :
    ∃ start usable, (init base bytes h).2 = fresh h.mem start usable ∧ start + usable < 2 ^ 64 ∧
      usable = (bytes - ((base + 15) / 16 * 16 - base)) / 16 * 16 ∧ 80 < usable ∧
      Rep (fresh h.mem start usable) [⟨usable - 48, true⟩] ∧
      (Whole (fresh h.mem start usable) ↔ base ≤ 16 ∧ 2 ^ 64 - 16 ≤ base + bytes) := by
  obtain ⟨start, usable, hheap, hpos, hstart, husable, hsize, hend⟩ := init_eq hbase hbytes hinit
  refine ⟨start, usable, hheap, hend, by rw [husable, hstart], hsize,
    rep_fresh hpos (by omega) (by omega) hsize hend, ?_⟩
  rw [whole_fresh_iff hend]
  omega

/-! ## The heap with all the memory -/

/-- The size of the only block of that heap. -/
def wholeSize : ℕ := 2 ^ 64 - 80

theorem rep_whole (mem : Memory) : Rep (fresh mem 16 (2 ^ 64 - 32)) [⟨wholeSize, true⟩] :=
  rep_fresh (by decide) (by decide) (by decide) (by decide) (by decide)

theorem header_whole (mem : Memory) :
    Header (fresh mem 16 (2 ^ 64 - 32)).mem 16 ⟨wholeSize, true⟩ 0 0 := (rep_whole mem).seg.1

/-- The sum in `kmem_split_if_useful` is 0, and so the block is split behind its end. -/
theorem splitIfUseful_whole (mem : Memory) :
    splitIfUseful (fresh mem 16 (2 ^ 64 - 32)) 16 wholeSize =
      split (fresh mem 16 (2 ^ 64 - 32)) 16 wholeSize (2 ^ 64 - 16) := by
  have hsize : (fresh mem 16 (2 ^ 64 - 32)).sizeOf 16 = wholeSize :=
    (header_whole mem).sizeOf_eq (by decide)
  have hend : (fresh mem 16 (2 ^ 64 - 32)).heapEnd = 2 ^ 64 - 16 := by
    show add64 16 (2 ^ 64 - 32) = 2 ^ 64 - 16
    decide
  have hnew : alignUpPtr (add64 (payload 16) wholeSize) align = 2 ^ 64 - 16 := by decide
  simp only [splitIfUseful, hsize, hend, hnew]
  rw [if_neg (by decide), if_neg (by decide), if_neg (by decide), if_neg (by decide),
    if_neg (by decide)]

/-- The heap after the only block was allocated. -/
def overrun (mem : Memory) : Heap :=
  (split (fresh mem 16 (2 ^ 64 - 32)) 16 wholeSize (2 ^ 64 - 16)).setFree 16 0

theorem sameGlobals_overrun (mem : Memory) :
    SameGlobals (fresh mem 16 (2 ^ 64 - 32)) (overrun mem) :=
  (sameGlobals_split ..).setFree 16 0

theorem alloc_whole (mem : Memory) :
    alloc wholeSize (fresh mem 16 (2 ^ 64 - 32)) = some (64, overrun mem) := by
  have hheader := header_whole mem
  have hmagic : (fresh mem 16 (2 ^ 64 - 32)).magicOf 16 = magic := hheader.magicOf_eq (by decide)
  have hsize : (fresh mem 16 (2 ^ 64 - 32)).sizeOf 16 = wholeSize := hheader.sizeOf_eq (by decide)
  have hfree : (fresh mem 16 (2 ^ 64 - 32)).freeOf 16 = 1 := hheader.freeOf_eq (by decide)
  have hfuel : (fresh mem 16 (2 ^ 64 - 32)).fuel = 2 ^ 64 - 33 + 1 := by
    show add64 16 (2 ^ 64 - 32) - 16 = 2 ^ 64 - 33 + 1
    decide
  have hhead : (fresh mem 16 (2 ^ 64 - 32)).head = 16 := rfl
  have hwanted : alignUpSize wholeSize align = wholeSize := by decide
  have hready : ¬ ((fresh mem 16 (2 ^ 64 - 32)).initialized = false ∨ wholeSize = 0) := by
    rintro (hinit | hzero)
    · cases hinit
    · exact absurd hzero (by decide)
  have hpayload : payload 16 = 64 := by decide
  unfold alloc
  dsimp only
  rw [if_neg hready, hwanted, if_neg (by decide), hfuel, hhead, allocFrom, if_neg (by decide),
    if_neg (not_not.mpr hmagic), hfree, hsize, if_pos ⟨by decide, Nat.le_refl _⟩,
    splitIfUseful_whole, hpayload, overrun]

/-- The links of the block behind the end lie where the first block has its magic number and its
size. -/
theorem overrun_eq (mem : Memory) : ∃ f : Heap,
    overrun mem =
      ((((f.setPrev (2 ^ 64 - 16) 16).setNext (2 ^ 64 - 16) 0).setNext 16 (2 ^ 64 - 16)).setSize 16
      wholeSize).setFree 16 0 := by
  have hnext : (fresh mem 16 (2 ^ 64 - 32)).nextOf 16 = 0 :=
    (header_whole mem).nextOf_eq (by decide)
  have hkept : ∀ (f : Heap) (size : ℕ), ((((f.setMagic (2 ^ 64 - 16) magic).setSize (2 ^ 64 - 16)
      size).setFree (2 ^ 64 - 16) 1).setPrev (2 ^ 64 - 16) 16).nextOf 16 = f.nextOf 16 := by
    intro f size
    simp only [Heap.nextOf, Heap.setMagic, Heap.setSize, Heap.setFree, Heap.setPrev]
    rw [word_store_of_disjoint _ _ (by decide), word_store_of_disjoint _ _ (by decide),
      word_store_of_disjoint _ _ (by decide), word_store_of_disjoint _ _ (by decide)]
  have hlinked : ∀ (f : Heap) (v : ℕ), (f.setNext (2 ^ 64 - 16) v).nextOf 16 = f.nextOf 16 := by
    intro f v
    simp only [Heap.nextOf, Heap.setNext]
    rw [word_store_of_disjoint _ _ (by decide)]
  simp only [overrun, split, hlinked, hkept, hnext]
  rw [if_neg (not_not.mpr rfl)]
  exact ⟨_, rfl⟩

theorem overrun_magicOf (mem : Memory) : (overrun mem).magicOf 16 = 16 := by
  obtain ⟨f, heq⟩ := overrun_eq mem
  rw [heq]
  simp only [Heap.magicOf, Heap.setFree, Heap.setSize, Heap.setNext, Heap.setPrev]
  have haddr : add64 (2 ^ 64 - 16) 32 = add64 16 0 := by decide
  rw [word_store_of_disjoint _ _ (by decide), word_store_of_disjoint _ _ (by decide),
    word_store_of_disjoint _ _ (by decide), word_store_of_disjoint _ _ (by decide), haddr,
    word_store_self]
  decide

/-- The block of that allocation cannot be freed. -/
theorem freeChecked_overrun (mem : Memory) :
    freeChecked 64 (overrun mem) = some (-3, overrun mem) := by
  have hend : (overrun mem).heapEnd = 2 ^ 64 - 16 :=
    (sameGlobals_overrun mem).heapEnd.trans (by show add64 16 (2 ^ 64 - 32) = _; decide)
  have hbase : (overrun mem).heapBase = 16 := (sameGlobals_overrun mem).heapBase
  have hinit : (overrun mem).initialized = true := (sameGlobals_overrun mem).initialized
  have hblock : headerFromPayload 64 = 16 := by decide
  have hin : ¬ ptrInHeap (overrun mem) 64 = false := by
    simp [ptrInHeap, hinit, hbase, hend]
  have hmagic : (overrun mem).magicOf 16 ≠ magic := by
    rw [overrun_magicOf]
    decide
  unfold freeChecked
  dsimp only
  rw [if_neg (by decide), if_neg hin, if_neg (by decide), hblock, if_pos (Or.inr hmagic)]

/-- After that allocation there is no list of blocks that tiles the heap. -/
theorem not_rep_overrun (mem : Memory) (bs : List Blk) : ¬ Rep (overrun mem) bs := by
  intro hrep
  obtain ⟨b, ys, rfl⟩ := List.exists_cons_of_ne_nil hrep.nonempty
  have hheader := hrep.seg.1
  have hbase : (overrun mem).heapBase = 16 := (sameGlobals_overrun mem).heapBase
  rw [hbase] at hheader
  have hmagic : magic = 16 := (hheader.magicOf_eq (by decide)).symm.trans (overrun_magicOf mem)
  exact absurd hmagic (by decide)

theorem whole_unsafe (mem : Memory) : ∃ x,
    Relation.ReflTransGen Step ⟨fresh mem 16 (2 ^ 64 - 32), []⟩ x ∧ ¬ HeapSafe x := by
  refine ⟨_, .single (.alloc (by decide) (alloc_whole mem)), ?_⟩
  rintro ⟨⟨bs, hsafe⟩, -⟩
  exact not_rep_overrun mem bs hsafe.rep

/-! ## The heap -/

/-- An arena that leaves room for anything else in memory: it does not start at or before address 16
and end in the last 16 bytes. -/
def RealArena (base bytes : ℕ) : Prop := ¬ (base ≤ 16 ∧ 2 ^ 64 - 16 ≤ base + bytes)

instance (base bytes : ℕ) : Decidable (RealArena base bytes) := inferInstanceAs (Decidable (¬ _))

/-- For every arena that `kmem_init` accepts: the heap is safe in all states that its clients can
reach just when the arena is not all of memory. -/
theorem heap_safe_iff {base bytes : ℕ} {h₀ : Heap} (hbase : base < 2 ^ 64) (hbytes : bytes < 2 ^ 64)
    (hinit : (init base bytes h₀).1 = 0) :
    (∀ x, Relation.ReflTransGen Step ⟨(init base bytes h₀).2, []⟩ x → HeapSafe x) ↔
      RealArena base bytes := by
  obtain ⟨start, usable, hheap, hend, -, -, hrep, hwhole⟩ := init_cases hbase hbytes hinit
  rw [hheap, RealArena, ← hwhole]
  constructor
  · intro hsafe hw
    obtain ⟨rfl, rfl⟩ := (whole_fresh_iff hend).mp hw
    obtain ⟨x, hreach, hunsafe⟩ := whole_unsafe h₀.mem
    exact hunsafe (hsafe x hreach)
  · intro hw x hreach
    obtain ⟨hsame, bs, hinv, -⟩ :=
      Inv.reach (J := fun _ _ => True) (fun _ _ => trivial) (inv_fresh hrep) trivial hw hreach
    exact hinv.heapSafe fun hw' => hw (hsame.whole_iff.mp hw')

/-- The state before `kmem_init`, with a memory of zeros. -/
def blankHeap : Heap := ⟨fun _ => 0, 0, 0, 0, false⟩

/-- The condition is no consequence of the others: `kmem_init` accepts all of memory. -/
example : (init 16 (2 ^ 64 - 32) blankHeap).1 = 0 := by decide

/-- **The heap is safe.**  For every real arena that `kmem_init` accepts, in all states that the
clients can reach. -/
theorem heap_safe {base bytes : ℕ} {h₀ : Heap} (hbase : base < 2 ^ 64) (hbytes : bytes < 2 ^ 64)
    (harena : RealArena base bytes) (hinit : (init base bytes h₀).1 = 0) {x : Sys}
    (hreach : Relation.ReflTransGen Step ⟨(init base bytes h₀).2, []⟩ x) : HeapSafe x :=
  (heap_safe_iff hbase hbytes hinit).mpr harena x hreach

theorem heap_safe_page :
    ∃ p h, alloc 100 (init 4096 4096 blankHeap).2 = some (p, h) ∧
      HeapSafe ⟨h, record p 100 []⟩ := by
  have hinit : (init 4096 4096 blankHeap).1 = 0 := by decide
  have hfirst : HeapSafe ⟨(init 4096 4096 blankHeap).2, []⟩ :=
    heap_safe (by decide) (by decide) (by decide) hinit .refl
  obtain ⟨⟨p, h⟩, hrun⟩ := Option.isSome_iff_exists.mp (hfirst.2.1.alloc 100 (by decide))
  exact ⟨p, h, hrun, heap_safe (by decide) (by decide) (by decide) hinit
    (.single (.alloc (by decide) hrun))⟩

end Mcsos.Kmem
