import Mcsos.Elf.Loader
import Mathlib.Tactic.IntervalCases

/-!
# What the loader accepts

`Loadable` says which images can be loaded, in terms of their headers and with sums of unbounded
integers.  The loader accepts exactly those, its plan is the list of `PT_LOAD` headers, and it reads
no byte outside of the image (`planLoad_exact`).

The loop over the program headers is first replaced by a recursion over the list of `PT_LOAD`
headers (`run_planSegments`); the rest is about that list.
-/

namespace Mcsos.Elf

open Bytes Prog

/-- The ELF header of an image. -/
def ehdrOf (image : ℕ → UInt8) : Ehdr := Bytes.ofFn image

/-- Header `i` of the table at `phoff`. -/
def phdrOf (image : ℕ → UInt8) (phoff i : ℕ) : Phdr :=
  Bytes.ofFn fun j => image (phoff + phdrSize * i + j)

/-- A `PT_LOAD` header. -/
def Phdr.isLoad (ph : Phdr) : Bool := ph.type == ptLoad

/-- The `PT_LOAD` headers of an image, in the order of the table. -/
def loadHeaders (image : ℕ → UInt8) : List Phdr :=
  ((List.range (ehdrOf image).phnum).map (phdrOf image (ehdrOf image).phoff)).filter Phdr.isLoad

/-- An ELF header that can be loaded. -/
structure HeaderOk (eh : Ehdr) (imageSize : UInt64) (region : UserRegion) : Prop where
  magic : eh.ident 0 = 0x7f ∧ eh.ident 1 = 'E'.toNat ∧ eh.ident 2 = 'L'.toNat ∧
    eh.ident 3 = 'F'.toNat
  elfClass : eh.ident 4 = 2
  endian : eh.ident 5 = 1
  version : eh.ident 6 = 1 ∧ eh.version = 1
  type : eh.type = 2 ∨ eh.type = 3
  machine : eh.machine = 62
  ehsize : eh.ehsize = ehdrSize
  phentsize : eh.phentsize = phdrSize
  phnum : 1 ≤ eh.phnum
  phbounds : eh.phoff + phdrSize * eh.phnum ≤ imageSize.toNat
  entry : region.base.toNat ≤ eh.entry ∧ eh.entry < region.limit.toNat

/-- A `PT_LOAD` header that can be loaded. -/
structure SegmentOk (ph : Phdr) (imageSize : UInt64) (region : UserRegion) : Prop where
  flags : ph.flags < 8
  writeXorExecute : ¬ (ph.flags &&& pfW ≠ 0 ∧ ph.flags &&& pfX ≠ 0)
  sizes : ph.filesz ≤ ph.memsz ∧ 0 < ph.memsz
  align : ph.align = 0 ∨ ph.align = 1 ∨
    ((∃ k, ph.align = 2 ^ k) ∧ ph.vaddr % ph.align = ph.offset % ph.align)
  file : ph.offset + ph.filesz ≤ imageSize.toNat
  range : region.base.toNat ≤ ph.vaddr ∧ ph.vaddr + ph.memsz ≤ region.limit.toNat

/-- An image that can be loaded into the region. -/
structure Loadable (image : ℕ → UInt8) (imageSize : UInt64) (region : UserRegion) : Prop where
  size : ehdrSize ≤ imageSize.toNat
  header : HeaderOk (ehdrOf image) imageSize region
  count : 1 ≤ (loadHeaders image).length ∧ (loadHeaders image).length ≤ maxLoadSegments
  segments : ∀ ph ∈ loadHeaders image, SegmentOk ph imageSize region

/-- The plan that consists of these headers. -/
def planOf (entry : ℕ) (loads : List Phdr) : ImagePlan :=
  ⟨entry, loads.length, fun i => (loads[i]?.map Phdr.plan).getD ⟨0, 0, 0, 0, 0, 0⟩⟩

/-! ## The checks -/

variable {imageSize : UInt64} {region : UserRegion} {eh : Ehdr} {ph : Phdr} {e : Err}

theorem failIf_bind_eq_ok {c : Prop} [Decidable c] {α : Type} {k : Unit → Except Err α} {a : α} :
    (failIf c e >>= k) = .ok a ↔ ¬ c ∧ k () = .ok a := by
  unfold failIf
  split_ifs with h
  · exact ⟨fun heq => (nomatch heq), fun hk => absurd h hk.1⟩
  · exact ⟨fun heq => ⟨h, heq⟩, fun hk => hk.2⟩

theorem failIf_eq_ok {c : Prop} [Decidable c] : failIf c e = .ok () ↔ ¬ c := by
  unfold failIf
  split_ifs with h
  · exact ⟨fun heq => (nomatch heq), fun hk => absurd h hk⟩
  · exact ⟨fun _ => h, fun _ => rfl⟩

theorem bind_eq_ok {α : Type} {x : Except Err Unit} {k : Unit → Except Err α} {a : α} :
    (x >>= k) = .ok a ↔ x = .ok () ∧ k () = .ok a := by
  cases x with
  | error e => exact ⟨fun h => (nomatch h), fun h => (nomatch h.1)⟩
  | ok u => exact ⟨fun h => ⟨rfl, h⟩, fun h => h.2⟩

/-- The sum is the one of unbounded integers, unless it does not fit. -/
theorem addOverflow_eq {a b : ℕ} (ha : a < 2 ^ 64) (hb : b < 2 ^ 64) :
    addOverflow a b = if a + b < 2 ^ 64 then some (a + b) else none := by
  unfold addOverflow
  by_cases h : a + b < 2 ^ 64
  · rw [Nat.mod_eq_of_lt h, if_neg (by omega), if_pos h]
  · rw [if_neg h, if_pos (by omega)]

theorem validateUserRange_eq_ok {base size : ℕ} (hbase : base < 2 ^ 64) (hsize : size < 2 ^ 64) :
    validateUserRange region base size = .ok () ↔
      0 < size ∧ region.base.toNat ≤ base ∧ base + size ≤ region.limit.toNat := by
  have hlimit := region.limit.toNat_lt
  unfold validateUserRange
  rw [failIf_bind_eq_ok, failIf_bind_eq_ok, addOverflow_eq hbase hsize]
  by_cases h : base + size < 2 ^ 64
  · simp only [if_pos h, failIf_eq_ok]
    omega
  · simp only [if_neg h, reduceCtorEq, and_false, false_iff]
    omega

theorem isPowerOfTwo_iff (v : ℕ) : isPowerOfTwo v = true ↔ ∃ k, v = 2 ^ k := by
  unfold isPowerOfTwo
  rw [Bool.and_eq_true, bne_iff_ne, beq_iff_eq]
  exact Nat.ne_zero_and_sub_one_eq_zero_iff_isPowerOfTwo

/-- Only numbers below eight have no bit besides the three flags. -/
theorem flags_mask {f : ℕ} (hf : f < 2 ^ 32) :
    f &&& (2 ^ 32 - 1 - (pfR ||| pfW ||| pfX)) = 0 ↔ f < 8 := by
  constructor
  · intro hzero
    by_contra hlarge
    -- the highest bit of a larger number is not masked out
    have hne : f ≠ 0 := by omega
    have hlow : 3 ≤ f.log2 := (Nat.le_log2 hne).mpr (by omega)
    have hhigh : f.log2 < 32 := (Nat.log2_lt hne).mpr hf
    have hbit := congrArg (Nat.testBit · f.log2) hzero
    simp only [Nat.testBit_and, Nat.testBit_log2 hne, Bool.true_and, Nat.zero_testBit] at hbit
    generalize f.log2 = k at hlow hhigh hbit
    interval_cases k <;> exact absurd hbit (by decide)
  · intro hsmall
    interval_cases f <;> decide

theorem validateIdent_eq_ok : validateIdent eh = .ok () ↔
    (eh.ident 0 = 0x7f ∧ eh.ident 1 = 'E'.toNat ∧ eh.ident 2 = 'L'.toNat ∧ eh.ident 3 = 'F'.toNat) ∧
      eh.ident 4 = 2 ∧ eh.ident 5 = 1 ∧ eh.ident 6 = 1 ∧ eh.version = 1 := by
  unfold validateIdent
  simp only [failIf_bind_eq_ok, failIf_eq_ok, not_or, not_not]

/-- The table of program headers lies inside the image.  Its size never wraps around, as both
factors have 16 bits. -/
theorem validatePhdrBounds_eq_ok : validatePhdrBounds eh imageSize = .ok () ↔
    eh.phentsize = phdrSize ∧ 1 ≤ eh.phnum ∧
      eh.phoff + phdrSize * eh.phnum ≤ imageSize.toNat := by
  have hnum : eh.phnum < 256 ^ 2 := word_lt _ _ _
  have hoff : eh.phoff < 256 ^ 8 := word_lt _ _ _
  have hsize := imageSize.toNat_lt
  unfold validatePhdrBounds
  simp only [failIf_bind_eq_ok, not_not]
  by_cases hentsize : eh.phentsize = phdrSize
  · have hbytes : phdrSize * eh.phnum < 2 ^ 64 := by
      simp only [phdrSize]
      omega
    rw [hentsize, Nat.mod_eq_of_lt hbytes, addOverflow_eq hoff hbytes]
    by_cases hzero : eh.phnum = 0
    · simp [hzero]
    · have hdiv : phdrSize * eh.phnum / eh.phnum = phdrSize :=
        Nat.mul_div_cancel _ (Nat.pos_of_ne_zero hzero)
      by_cases h : eh.phoff + phdrSize * eh.phnum < 2 ^ 64
      · simp only [if_pos h, failIf_eq_ok, hdiv, ne_eq, not_true_eq_false, and_false,
          not_false_eq_true, true_and]
        omega
      · simp only [if_neg h, reduceCtorEq, and_false, false_iff]
        omega
  · simp [hentsize]

theorem validateAlign_eq_ok : validateAlign ph = .ok () ↔ ph.align = 0 ∨ ph.align = 1 ∨
    ((∃ k, ph.align = 2 ^ k) ∧ ph.vaddr % ph.align = ph.offset % ph.align) := by
  unfold validateAlign
  split_ifs with halign
  · rw [failIf_bind_eq_ok, failIf_eq_ok, Bool.not_eq_false, isPowerOfTwo_iff, not_not]
    simp only [halign.1, halign.2, false_or]
  · simp only [true_iff]
    rcases not_and_or.mp halign with hzero | hone
    · exact Or.inl (not_not.mp hzero)
    · exact Or.inr (Or.inl (not_not.mp hone))

theorem validateLoadSegment_eq_ok :
    validateLoadSegment ph imageSize region = .ok () ↔ SegmentOk ph imageSize region := by
  have hflags : ph.flags < 256 ^ 4 := word_lt _ _ _
  have hoffset : ph.offset < 256 ^ 8 := word_lt _ _ _
  have hvaddr : ph.vaddr < 256 ^ 8 := word_lt _ _ _
  have hfilesz : ph.filesz < 256 ^ 8 := word_lt _ _ _
  have hmemsz : ph.memsz < 256 ^ 8 := word_lt _ _ _
  have hsize := imageSize.toNat_lt
  unfold validateLoadSegment
  rw [failIf_bind_eq_ok, failIf_bind_eq_ok, failIf_bind_eq_ok, bind_eq_ok, not_not,
    flags_mask hflags, not_lt, validateAlign_eq_ok, addOverflow_eq hoffset hfilesz]
  by_cases h : ph.offset + ph.filesz < 2 ^ 64
  · simp only [if_pos h, failIf_bind_eq_ok, validateUserRange_eq_ok hvaddr hmemsz]
    constructor
    · rintro ⟨hf, hwx, hle, halign, hfile, hpos, hrange⟩
      exact ⟨hf, hwx, ⟨hle, hpos⟩, halign, by omega, hrange⟩
    · rintro ⟨hf, hwx, ⟨hle, hpos⟩, halign, hfile, hrange⟩
      exact ⟨hf, hwx, hle, halign, by omega, hpos, hrange⟩
  · simp only [if_neg h, reduceCtorEq, and_false, false_iff]
    intro hok
    have hfile := hok.file
    omega

theorem validateEntry_eq_ok : validateEntry eh region = .ok () ↔
    region.base.toNat ≤ eh.entry ∧ eh.entry < region.limit.toNat := by
  have hentry : eh.entry < 256 ^ 8 := word_lt _ _ _
  have hrange : validateUserRange region eh.entry 1 = .ok () ↔ _ :=
    validateUserRange_eq_ok hentry (by decide : 1 < 2 ^ 64)
  unfold validateEntry
  cases hvalid : validateUserRange region eh.entry 1 with
  | error e =>
      rw [hvalid] at hrange
      simp only [reduceCtorEq, false_iff] at hrange ⊢
      omega
  | ok u =>
      simp only [hvalid, true_iff] at hrange ⊢
      omega

theorem validateHeader_eq_ok :
    validateHeader eh imageSize region = .ok () ↔ HeaderOk eh imageSize region := by
  unfold validateHeader
  rw [bind_eq_ok, failIf_bind_eq_ok, failIf_bind_eq_ok, failIf_bind_eq_ok, bind_eq_ok,
    validateIdent_eq_ok, validatePhdrBounds_eq_ok, validateEntry_eq_ok]
  constructor
  · rintro ⟨⟨hmagic, hclass, hendian, hversion⟩, htype, hmachine, hehsize,
      ⟨hentsize, hnum, hbounds⟩, hbase, hlimit⟩
    exact ⟨hmagic, hclass, hendian, hversion, by omega, not_not.mp hmachine, not_not.mp hehsize,
      hentsize, hnum, hbounds, hbase, hlimit⟩
  · intro h
    have htype := h.type
    exact ⟨⟨h.magic, h.elfClass, h.endian, h.version⟩, by omega, not_not.mpr h.machine,
      not_not.mpr h.ehsize, ⟨h.phentsize, h.phnum, h.phbounds⟩, h.entry⟩

/-! ## The loop -/

/-- The loop, over the list of `PT_LOAD` headers that are left. -/
def planHeaders (imageSize : UInt64) (region : UserRegion) :
    List Phdr → ImagePlan → Except Err Unit × ImagePlan
  | [], plan => (if plan.segmentCount = 0 then .error .segcount else .ok (), plan)
  | ph :: rest, plan =>
      if maxLoadSegments ≤ plan.segmentCount then (.error .segcount, zeroPlan)
      else
        match validateLoadSegment ph imageSize region with
        | .error e => (.error e, zeroPlan)
        | .ok _ => planHeaders imageSize region rest (plan.add ph.plan)

/-- Headers other than `PT_LOAD` ones are skipped. -/
theorem run_planSegments (image : ℕ → UInt8) (phoff remaining i : ℕ) (plan : ImagePlan) :
    run (planSegments imageSize region phoff remaining i plan) image =
      (.ok (planHeaders imageSize region
        (((List.range' i remaining).map (phdrOf image phoff)).filter Phdr.isLoad) plan),
        image) := by
  induction remaining generalizing i plan with
  | zero => rfl
  | succ remaining ih =>
      rw [planSegments, run_bind_ok (run_readBytes image phdrSize (phoff + phdrSize * i)),
        List.range'_succ, List.map_cons, ← phdrOf]
      by_cases htype : (phdrOf image phoff i).type = ptLoad
      · have hload : (phdrOf image phoff i).isLoad = true := beq_iff_eq.mpr htype
        rw [if_neg (not_not.mpr htype), List.filter_cons_of_pos hload, planHeaders]
        split_ifs with hfull
        · rfl
        · cases validateLoadSegment (phdrOf image phoff i) imageSize region with
          | error e => rfl
          | ok u => exact ih (i + 1) _
      · have hload : ¬ (phdrOf image phoff i).isLoad = true := fun h => htype (beq_iff_eq.mp h)
        rw [if_pos htype, List.filter_cons_of_neg hload]
        exact ih (i + 1) plan

theorem add_planOf (entry : ℕ) (done : List Phdr) (ph : Phdr) :
    (planOf entry done).add ph.plan = planOf entry (done ++ [ph]) := by
  unfold planOf ImagePlan.add
  simp only [List.length_append, List.length_singleton, ImagePlan.mk.injEq, true_and]
  funext i
  rcases Nat.lt_trichotomy i done.length with hlt | rfl | hgt
  · rw [Function.update_of_ne hlt.ne, List.getElem?_append_left hlt]
  · simp
  · rw [Function.update_of_ne hgt.ne', List.getElem?_eq_none hgt.le,
      List.getElem?_eq_none (by simpa using Nat.succ_le_of_lt hgt)]

/-- The headers that are left are accepted if there is room for them and each is all right. -/
theorem planHeaders_ok_iff (entry : ℕ) (done rest : List Phdr)
    (hroom : done.length ≤ maxLoadSegments) :
    (planHeaders imageSize region rest (planOf entry done)).1 = .ok () ↔
      1 ≤ (done ++ rest).length ∧ (done ++ rest).length ≤ maxLoadSegments ∧
        ∀ ph ∈ rest, SegmentOk ph imageSize region := by
  induction rest generalizing done with
  | nil =>
      have hcount : (planOf entry done).segmentCount = done.length := rfl
      simp only [planHeaders, hcount, List.append_nil, List.not_mem_nil, false_implies,
        implies_true, and_true]
      split_ifs with hzero
      · simp [hzero]
      · simp [hroom, Nat.one_le_iff_ne_zero, hzero]
  | cons ph rest ih =>
      have hcount : (planOf entry done).segmentCount = done.length := rfl
      simp only [planHeaders, hcount]
      split_ifs with hfull
      · simp only [List.length_append, List.length_cons, false_iff]
        omega
      · cases hvalid : validateLoadSegment ph imageSize region with
        | error e =>
            simp only [reduceCtorEq, false_iff]
            rintro ⟨-, -, hall⟩
            rw [validateLoadSegment_eq_ok.mpr (hall ph List.mem_cons_self)] at hvalid
            cases hvalid
        | ok u =>
            have hroom' : (done ++ [ph]).length ≤ maxLoadSegments := by
              rw [List.length_append, List.length_singleton]
              omega
            have hph : SegmentOk ph imageSize region := validateLoadSegment_eq_ok.mp hvalid
            simp only [add_planOf, ih _ hroom', List.append_assoc, List.singleton_append,
              List.forall_mem_cons, hph, true_and]

theorem planHeaders_plan (entry : ℕ) (done rest : List Phdr)
    (h : (planHeaders imageSize region rest (planOf entry done)).1 = .ok ()) :
    (planHeaders imageSize region rest (planOf entry done)).2 = planOf entry (done ++ rest) := by
  induction rest generalizing done with
  | nil => rw [planHeaders, List.append_nil]
  | cons ph rest ih =>
      simp only [planHeaders] at h ⊢
      split_ifs at h ⊢ with hfull
      cases hvalid : validateLoadSegment ph imageSize region with
      | error e =>
          rw [hvalid] at h
          cases h
      | ok u =>
          simp only [hvalid, add_planOf] at h ⊢
          rw [ih _ h, List.append_assoc, List.singleton_append]

/-! ## The whole function -/

/-- What `m11_elf64_plan_load` returns for an image. -/
def planResult (image : ℕ → UInt8) (imageSize : UInt64) (region : UserRegion) :
    Except Err Unit × ImagePlan :=
  if imageSize.toNat < ehdrSize then (.error .size, zeroPlan)
  else
    match validateHeader (ehdrOf image) imageSize region with
    | .error e => (.error e, zeroPlan)
    | .ok _ => planHeaders imageSize region (loadHeaders image) (planOf (ehdrOf image).entry [])

theorem run_planLoad (image : ℕ → UInt8) (imageSize : UInt64) (region : UserRegion) :
    run (planLoad imageSize region) image = (.ok (planResult image imageSize region), image) := by
  have hread : run (readBytes ehdrSize 0 : Prog ℕ UInt8 Err _) image =
      (.ok (ehdrOf image), image) := by
    rw [run_readBytes]
    simp only [Nat.zero_add, ehdrOf]
  unfold planLoad planResult
  split_ifs with hsize
  · rfl
  · rw [run_bind_ok hread]
    cases validateHeader (ehdrOf image) imageSize region with
    | error e => rfl
    | ok u =>
        have hloop : run (planSegments imageSize region _ _ _ _) image = _ := run_planSegments image
          (ehdrOf image).phoff (ehdrOf image).phnum 0 (planOf (ehdrOf image).entry [])
        rwa [← List.range_eq_range'] at hloop

theorem planResult_ok_iff (image : ℕ → UInt8) (imageSize : UInt64) (region : UserRegion) :
    (planResult image imageSize region).1 = .ok () ↔ Loadable image imageSize region := by
  unfold planResult
  split_ifs with hsize
  · exact ⟨fun h => (nomatch h), fun h => absurd h.size (Nat.not_le.mpr hsize)⟩
  · cases hheader : validateHeader (ehdrOf image) imageSize region with
    | error e =>
        refine ⟨fun h => (nomatch h), fun h => ?_⟩
        rw [validateHeader_eq_ok.mpr h.header] at hheader
        cases hheader
    | ok u =>
        show (planHeaders imageSize region _ _).1 = .ok () ↔ _
        rw [planHeaders_ok_iff _ _ _ (Nat.zero_le _), List.nil_append]
        constructor
        · rintro ⟨hsome, hroom, hall⟩
          exact ⟨Nat.not_lt.mp hsize, validateHeader_eq_ok.mp hheader, ⟨hsome, hroom⟩, hall⟩
        · intro h
          exact ⟨h.count.1, h.count.2, h.segments⟩

theorem planResult_plan {image : ℕ → UInt8} {imageSize : UInt64} {region : UserRegion}
    (h : (planResult image imageSize region).1 = .ok ()) :
    (planResult image imageSize region).2 = planOf (ehdrOf image).entry (loadHeaders image) := by
  unfold planResult at h ⊢
  split_ifs at h ⊢ with hsize
  cases hheader : validateHeader (ehdrOf image) imageSize region with
  | error e =>
      rw [hheader] at h
      cases h
  | ok u =>
      simp only [hheader] at h ⊢
      exact planHeaders_plan _ [] _ h

theorem within_planSegments {phoff remaining i : ℕ} (plan : ImagePlan)
    (h : phoff + phdrSize * (i + remaining) ≤ imageSize.toNat) :
    Within (· < imageSize.toNat) (planSegments imageSize region phoff remaining i plan) := by
  induction remaining generalizing i plan with
  | zero => trivial
  | succ remaining ih =>
      have hnext : phoff + phdrSize * (i + 1 + remaining) ≤ imageSize.toNat := by
        rwa [Nat.add_assoc, Nat.add_comm 1]
      refine Within.bind (within_readBytes fun j hj => ?_) fun ph => ?_
      · have : phdrSize * (i + 1) ≤ phdrSize * (i + (remaining + 1)) :=
          Nat.mul_le_mul_left _ (by omega)
        rw [Nat.mul_succ] at this
        omega
      · split_ifs
        · exact ih plan hnext
        · trivial
        · cases validateLoadSegment ph imageSize region with
          | error e => trivial
          | ok u => exact ih _ hnext

theorem within_planLoad (imageSize : UInt64) (region : UserRegion) :
    Within (· < imageSize.toNat) (planLoad imageSize region) := by
  unfold planLoad
  split_ifs with hsize
  · trivial
  · refine Within.bind (within_readBytes fun j hj => by omega) fun eh => ?_
    cases hheader : validateHeader eh imageSize region with
    | error e => trivial
    | ok u =>
        refine within_planSegments _ ?_
        rw [Nat.zero_add]
        exact (validateHeader_eq_ok.mp hheader).phbounds

/-- **The loader is exact.**  On every image the function ends.  It accepts exactly the images that
can be loaded, and then its plan has the entry and the `PT_LOAD` headers in the order of the table;
and it looks at no byte outside of the image, whatever the bytes are. -/
theorem planLoad_exact (image : ℕ → UInt8) (imageSize : UInt64) (region : UserRegion) :
    ∃ status plan, run (planLoad imageSize region) image = (.ok (status, plan), image) ∧
      (status = .ok () ↔ Loadable image imageSize region) ∧
      (status = .ok () → plan = planOf (ehdrOf image).entry (loadHeaders image)) ∧
      Within (· < imageSize.toNat) (planLoad imageSize region) :=
  ⟨_, _, run_planLoad image imageSize region, planResult_ok_iff image imageSize region,
    planResult_plan, within_planLoad imageSize region⟩

end Mcsos.Elf
