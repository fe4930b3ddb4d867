import Mcsos.Kmem.Heap
import Mcsos.Kmem.Blocks

/-!
# The list of blocks in memory

`Seg` says that the headers of blocks side by side are in the memory, with their links.  A part of a
list is a `Seg` as well: `seg_append` takes a list apart at any block, so that a change of one block
leaves the parts before and after it alone.

`Rep` is a heap with a list of blocks from its start to its end, and `Rep.replace` the rule for the
operations: a list of blocks within the heap is replaced by another one of the same extent.
-/

namespace Mcsos.Kmem

open Bytes Memory

variable {h h' : Heap} {mem mem' : Memory} {a p n v : ℕ} {b : Blk} {bs xs ys zs zs' : List Blk}

/-! ## Headers -/

/-- The header of a block, with its links. -/
structure Header (mem : Memory) (a : ℕ) (b : Blk) (prev next : ℕ) : Prop where
  magic : word mem 8 a = magic
  size : word mem 8 (a + 8) = b.size
  free : word mem 4 (a + 16) = if b.free then 1 else 0
  prev : word mem 8 (a + 32) = prev
  next : word mem 8 (a + 40) = next

theorem Header.congr (hb : Header mem a b p n) (hsame : SameOn a (a + 48) mem mem') :
    Header mem' a b p n where
  magic := (hsame.word (Nat.le_refl _) (by omega)).trans hb.magic
  size := (hsame.word (by omega) (by omega)).trans hb.size
  free := (hsame.word (by omega) (by omega)).trans hb.free
  prev := (hsame.word (by omega) (by omega)).trans hb.prev
  next := (hsame.word (by omega) (by omega)).trans hb.next

/-- The mark of a free block. -/
theorem mark_ne_zero {free : Bool} : (if free then 1 else 0) ≠ 0 ↔ free = true := by
  cases free with
  | false => exact iff_of_false (fun hne => hne rfl) Bool.false_ne_true
  | true => exact iff_of_true Nat.one_ne_zero rfl

theorem add64_eq {a off : ℕ} (h : a + off < 2 ^ 64) : add64 a off = a + off := Nat.mod_eq_of_lt h

theorem sub64_eq {a b : ℕ} (hle : b ≤ a) (hlt : a < 2 ^ 64) : sub64 a b = a - b := by
  have hsum : a + (2 ^ 64 - b) = a - b + 2 ^ 64 := by omega
  rw [sub64, hsum, Nat.add_mod_right, Nat.mod_eq_of_lt (by omega)]

section Fields

variable (ha : a + 48 ≤ 2 ^ 64)
include ha

theorem Header.magicOf_eq (hb : Header h.mem a b p n) : h.magicOf a = Kmem.magic := by
  rw [Heap.magicOf, add64_eq (by omega)]
  exact hb.magic

theorem Header.sizeOf_eq (hb : Header h.mem a b p n) : h.sizeOf a = b.size := by
  rw [Heap.sizeOf, add64_eq (by omega)]
  exact hb.size

theorem Header.freeOf_eq (hb : Header h.mem a b p n) : h.freeOf a = if b.free then 1 else 0 := by
  rw [Heap.freeOf, add64_eq (by omega)]
  exact hb.free

theorem Header.prevOf_eq (hb : Header h.mem a b p n) : h.prevOf a = p := by
  rw [Heap.prevOf, add64_eq (by omega)]
  exact hb.prev

theorem Header.nextOf_eq (hb : Header h.mem a b p n) : h.nextOf a = n := by
  rw [Heap.nextOf, add64_eq (by omega)]
  exact hb.next

theorem setSize_mem (h : Heap) (v : ℕ) : (h.setSize a v).mem = h.mem.store (a + 8) 8 v := by
  rw [Heap.setSize, add64_eq (by omega)]

theorem setFree_mem (h : Heap) (v : ℕ) : (h.setFree a v).mem = h.mem.store (a + 16) 4 v := by
  rw [Heap.setFree, add64_eq (by omega)]

theorem setPrev_mem (h : Heap) (v : ℕ) : (h.setPrev a v).mem = h.mem.store (a + 32) 8 v := by
  rw [Heap.setPrev, add64_eq (by omega)]

theorem setNext_mem (h : Heap) (v : ℕ) : (h.setNext a v).mem = h.mem.store (a + 40) 8 v := by
  rw [Heap.setNext, add64_eq (by omega)]

theorem setMagic_mem (h : Heap) (v : ℕ) : (h.setMagic a v).mem = h.mem.store a 8 v := by
  rw [Heap.setMagic, add64_eq (by omega), Nat.add_zero]

/-! ### Stores to the header itself -/

theorem Header.setSize (hb : Header h.mem a b p n) (hv : v < 2 ^ 64) :
    Header (h.setSize a v).mem a { b with size := v } p n := by
  rw [setSize_mem ha]
  refine ⟨?_, ?_, ?_, ?_, ?_⟩
  · rw [word_store_of_disjoint _ _ (by omega), hb.magic]
  · rw [word_store_self]
    exact Nat.mod_eq_of_lt hv
  · rw [word_store_of_disjoint _ _ (by omega), hb.free]
  · rw [word_store_of_disjoint _ _ (by omega), hb.prev]
  · rw [word_store_of_disjoint _ _ (by omega), hb.next]

theorem Header.setFree (hb : Header h.mem a b p n) (free : Bool) :
    Header (h.setFree a (if free then 1 else 0)).mem a { b with free := free } p n := by
  rw [setFree_mem ha]
  refine ⟨?_, ?_, ?_, ?_, ?_⟩
  · rw [word_store_of_disjoint _ _ (by omega), hb.magic]
  · rw [word_store_of_disjoint _ _ (by omega), hb.size]
  · rw [word_store_self]
    cases free <;> rfl
  · rw [word_store_of_disjoint _ _ (by omega), hb.prev]
  · rw [word_store_of_disjoint _ _ (by omega), hb.next]

theorem Header.setPrev (hb : Header h.mem a b p n) (hv : v < 2 ^ 64) :
    Header (h.setPrev a v).mem a b v n := by
  rw [setPrev_mem ha]
  refine ⟨?_, ?_, ?_, ?_, ?_⟩
  · rw [word_store_of_disjoint _ _ (by omega), hb.magic]
  · rw [word_store_of_disjoint _ _ (by omega), hb.size]
  · rw [word_store_of_disjoint _ _ (by omega), hb.free]
  · rw [word_store_self]
    exact Nat.mod_eq_of_lt hv
  · rw [word_store_of_disjoint _ _ (by omega), hb.next]

theorem Header.setNext (hb : Header h.mem a b p n) (hv : v < 2 ^ 64) :
    Header (h.setNext a v).mem a b p v := by
  rw [setNext_mem ha]
  refine ⟨?_, ?_, ?_, ?_, ?_⟩
  · rw [word_store_of_disjoint _ _ (by omega), hb.magic]
  · rw [word_store_of_disjoint _ _ (by omega), hb.size]
  · rw [word_store_of_disjoint _ _ (by omega), hb.free]
  · rw [word_store_of_disjoint _ _ (by omega), hb.prev]
  · rw [word_store_self]
    exact Nat.mod_eq_of_lt hv

/-- All fields of a new header are stored. -/
theorem header_new (h : Heap) {size prev next : ℕ} (hsize : size < 2 ^ 64) (hprev : prev < 2 ^ 64)
    (hnext : next < 2 ^ 64) :
    Header (((((h.setMagic a Kmem.magic).setSize a size).setFree a 1).setPrev a prev).setNext
      a next).mem a ⟨size, true⟩ prev next := by
  rw [setNext_mem ha, setPrev_mem ha, setFree_mem ha, setSize_mem ha, setMagic_mem ha]
  refine ⟨?_, ?_, ?_, ?_, ?_⟩
  · rw [word_store_of_disjoint _ _ (by omega), word_store_of_disjoint _ _ (by omega),
      word_store_of_disjoint _ _ (by omega), word_store_of_disjoint _ _ (by omega), word_store_self]
    rfl
  · rw [word_store_of_disjoint _ _ (by omega), word_store_of_disjoint _ _ (by omega),
      word_store_of_disjoint _ _ (by omega), word_store_self]
    exact Nat.mod_eq_of_lt hsize
  · rw [word_store_of_disjoint _ _ (by omega), word_store_of_disjoint _ _ (by omega),
      word_store_self]
    rfl
  · rw [word_store_of_disjoint _ _ (by omega), word_store_self]
    exact Nat.mod_eq_of_lt hprev
  · rw [word_store_self]
    exact Nat.mod_eq_of_lt hnext

/-! ### Stores to other headers -/

variable {lo hi : ℕ} (hout : hi ≤ a ∨ a + 48 ≤ lo)
include hout

theorem sameOn_setMagic (h : Heap) (v : ℕ) : SameOn lo hi h.mem (h.setMagic a v).mem := by
  rw [setMagic_mem ha]
  exact sameOn_store (by omega) v

theorem sameOn_setSize (h : Heap) (v : ℕ) : SameOn lo hi h.mem (h.setSize a v).mem := by
  rw [setSize_mem ha]
  exact sameOn_store (by omega) v

theorem sameOn_setFree (h : Heap) (v : ℕ) : SameOn lo hi h.mem (h.setFree a v).mem := by
  rw [setFree_mem ha]
  exact sameOn_store (by omega) v

theorem sameOn_setPrev (h : Heap) (v : ℕ) : SameOn lo hi h.mem (h.setPrev a v).mem := by
  rw [setPrev_mem ha]
  exact sameOn_store (by omega) v

theorem sameOn_setNext (h : Heap) (v : ℕ) : SameOn lo hi h.mem (h.setNext a v).mem := by
  rw [setNext_mem ha]
  exact sameOn_store (by omega) v

end Fields

/-! ## Lists of headers -/

/-- The headers of the blocks from `a` on are linked, after the block `prev` and before `next`. -/
def Seg (mem : Memory) : (prev a : ℕ) → List Blk → (next : ℕ) → Prop
  | _, _, [], _ => True
  | prev, a, b :: bs, next =>
      Header mem a b prev (linkTo (a + 48 + b.size) bs next) ∧ Seg mem a (a + 48 + b.size) bs next

theorem seg_append {prev next : ℕ} : Seg mem prev a (xs ++ ys) next ↔
    Seg mem prev a xs (linkTo (a + extent xs) ys next) ∧
      Seg mem (last prev a xs) (a + extent xs) ys next := by
  induction xs generalizing prev a with
  | nil => exact ⟨fun hys => ⟨trivial, hys⟩, fun hys => hys.2⟩
  | cons b xs ih =>
      have haddr : a + extent (b :: xs) = a + 48 + b.size + extent xs := by
        rw [extent]
        omega
      have hlink : linkTo (a + 48 + b.size) (xs ++ ys) next =
          linkTo (a + 48 + b.size) xs (linkTo (a + 48 + b.size + extent xs) ys next) := by
        cases xs with
        | nil => rfl
        | cons c xs => rfl
      rw [List.cons_append, Seg, Seg, ih, hlink, last, haddr, and_assoc]

theorem Seg.congr {prev next : ℕ} (hseg : Seg mem prev a bs next)
    (hsame : SameOn a (a + extent bs) mem mem') : Seg mem' prev a bs next := by
  induction bs generalizing prev a with
  | nil => trivial
  | cons b bs ih =>
      rw [extent] at hsame
      exact ⟨hseg.1.congr (hsame.mono (Nat.le_refl _) (by omega)),
        ih hseg.2 (hsame.mono (by omega) (by omega))⟩

/-- The link back from the first block is changed. -/
theorem Seg.setPrev {prev next : ℕ} (hseg : Seg h.mem prev a (b :: bs) next) (ha : a + 48 ≤ 2 ^ 64)
    (hv : v < 2 ^ 64) : Seg (h.setPrev a v).mem v a (b :: bs) next :=
  ⟨hseg.1.setPrev ha hv, hseg.2.congr (sameOn_setPrev ha (Or.inr (by omega)) h v)⟩

/-! ## The heap -/

/-- A heap with the blocks `bs` from its start to its end. -/
structure Rep (h : Heap) (bs : List Blk) : Prop where
  initialized : h.initialized = true
  head : h.head = h.heapBase
  base_pos : 0 < h.heapBase
  base_dvd : 16 ∣ h.heapBase
  end_lt : h.heapEnd < 2 ^ 64
  nonempty : bs ≠ []
  tile : h.heapBase + extent bs = h.heapEnd
  sizes : SizesOk bs
  seg : Seg h.mem 0 h.heapBase bs 0

/-- The global variables are the same. -/
structure SameGlobals (h h' : Heap) : Prop where
  heapBase : h'.heapBase = h.heapBase
  heapEnd : h'.heapEnd = h.heapEnd
  head : h'.head = h.head
  initialized : h'.initialized = h.initialized

theorem SameGlobals.refl (h : Heap) : SameGlobals h h := ⟨rfl, rfl, rfl, rfl⟩

theorem SameGlobals.trans {h'' : Heap} (h₁ : SameGlobals h h') (h₂ : SameGlobals h' h'') :
    SameGlobals h h'' :=
  ⟨h₂.heapBase.trans h₁.heapBase, h₂.heapEnd.trans h₁.heapEnd, h₂.head.trans h₁.head,
    h₂.initialized.trans h₁.initialized⟩

section Stores

variable (hsame : SameGlobals h h') (block v : ℕ)
include hsame

theorem SameGlobals.setMagic : SameGlobals h (h'.setMagic block v) :=
  ⟨hsame.heapBase, hsame.heapEnd, hsame.head, hsame.initialized⟩

theorem SameGlobals.setSize : SameGlobals h (h'.setSize block v) :=
  ⟨hsame.heapBase, hsame.heapEnd, hsame.head, hsame.initialized⟩

theorem SameGlobals.setFree : SameGlobals h (h'.setFree block v) :=
  ⟨hsame.heapBase, hsame.heapEnd, hsame.head, hsame.initialized⟩

theorem SameGlobals.setPrev : SameGlobals h (h'.setPrev block v) :=
  ⟨hsame.heapBase, hsame.heapEnd, hsame.head, hsame.initialized⟩

theorem SameGlobals.setNext : SameGlobals h (h'.setNext block v) :=
  ⟨hsame.heapBase, hsame.heapEnd, hsame.head, hsame.initialized⟩

end Stores

theorem sameGlobals_split (h : Heap) (block wanted newBlock : ℕ) :
    SameGlobals h (split h block wanted newBlock) := by
  refine SameGlobals.setSize (SameGlobals.setNext ?_ _ _) _ _
  have hnew := (((((SameGlobals.refl h).setMagic newBlock magic).setSize newBlock
    (sub64 (sub64 ((h.setMagic newBlock magic).sizeOf block) (sub64 newBlock (payload block)))
      headerSize)).setFree newBlock 1).setPrev newBlock block)
  split_ifs
  · exact (hnew.setNext _ _).setPrev _ _
  · exact hnew.setNext _ _

theorem sameGlobals_splitIfUseful (h : Heap) (block wanted : ℕ) :
    SameGlobals h (splitIfUseful h block wanted) := by
  unfold splitIfUseful
  extract_lets
  split_ifs
  · exact SameGlobals.refl h
  · exact SameGlobals.refl h
  · exact SameGlobals.refl h
  · exact SameGlobals.refl h
  · exact SameGlobals.refl h
  · exact sameGlobals_split h ..

theorem sameGlobals_merge (h : Heap) (block next : ℕ) : SameGlobals h (merge h block next) := by
  refine SameGlobals.setNext
    (SameGlobals.setPrev (SameGlobals.setSize (SameGlobals.setMagic ?_ _ _) _ _) _ _)
    _ _
  have hblock := (SameGlobals.refl h).setSize block
    (add64 (h.sizeOf block) (add64 headerSize (h.sizeOf next)))
  split_ifs
  · exact (hblock.setNext _ _).setPrev _ _
  · exact hblock.setNext _ _

namespace Rep

/-- Some blocks are replaced by others that take up the same bytes. -/
theorem replace (hrep : Rep h (xs ++ zs)) (hglobals : SameGlobals h h') (hzs' : zs' ≠ [])
    (hzs : zs ≠ []) (hextent : extent zs' = extent zs) (hsizes : SizesOk zs')
    (hsame : SameOn h.heapBase (h.heapBase + extent xs) h.mem h'.mem)
    (hseg : Seg h'.mem (last 0 h.heapBase xs) (h.heapBase + extent xs) zs' 0) :
    Rep h' (xs ++ zs') := by
  obtain ⟨hbefore, -⟩ := seg_append.mp hrep.seg
  have hlink : linkTo (h.heapBase + extent xs) zs' 0 = linkTo (h.heapBase + extent xs) zs 0 := by
    cases zs' with
    | nil => exact absurd rfl hzs'
    | cons c zs' =>
        cases zs with
        | nil => exact absurd rfl hzs
        | cons d zs => rfl
  obtain ⟨hbase, hend, hhead, hinit⟩ := hglobals
  refine ⟨hinit.trans hrep.initialized, ?_, ?_, ?_, ?_, ?_, ?_, ?_, ?_⟩
  · rw [hhead, hbase, hrep.head]
  · rw [hbase]
    exact hrep.base_pos
  · rw [hbase]
    exact hrep.base_dvd
  · rw [hend]
    exact hrep.end_lt
  · simp [hzs']
  · rw [hbase, hend, ← hrep.tile, extent_append, extent_append, hextent]
  · exact sizesOk_append.mpr ⟨(sizesOk_append.mp hrep.sizes).1, hsizes⟩
  · rw [hbase]
    refine seg_append.mpr ⟨?_, hseg⟩
    rw [hlink]
    exact hbefore.congr hsame

variable (hrep : Rep h (xs ++ b :: ys))
include hrep

theorem bounds : h.heapBase + extent xs + 48 + b.size + extent ys = h.heapEnd := by
  have htile := hrep.tile
  rw [extent_append, extent] at htile
  omega

theorem header : Header h.mem (h.heapBase + extent xs) b (last 0 h.heapBase xs)
    (linkTo (h.heapBase + extent xs + 48 + b.size) ys 0) := (seg_append.mp hrep.seg).2.1

theorem rest : Seg h.mem (h.heapBase + extent xs) (h.heapBase + extent xs + 48 + b.size) ys 0 :=
  (seg_append.mp hrep.seg).2.2

/-- The list after the block `b` was passed. -/
theorem passed : Rep h ((xs ++ [b]) ++ ys) := by
  rw [List.append_assoc]
  exact hrep

theorem header_fits : h.heapBase + extent xs + 48 ≤ 2 ^ 64 := by
  have hbounds := hrep.bounds
  have hend := hrep.end_lt
  omega

theorem size_ok : 0 < b.size ∧ 16 ∣ b.size :=
  (sizesOk_cons.mp (sizesOk_append.mp hrep.sizes).2).1

end Rep

end Mcsos.Kmem
