import Mcsos.Lib.Align
import Mcsos.Lib.Bitmap

/-!
# The physical memory manager

One bit for each frame of 4096 bytes, set if the frame is in use.  `pmm_init_from_map` reads the
memory map of the boot loader; frames are then allocated and freed one by one, and ranges reserved.

Addresses and sizes are 64-bit numbers.  Where the code can wrap around, in `align_up`, the modulus
is written out.
-/

namespace Mcsos.Pmm

open Bytes

/-- `PMM_PAGE_SIZE` -/
def pageSize : ℕ := 4096

/-- `align_down` -/
def alignDown (value align : ℕ) : ℕ := value &&& (2 ^ 64 - 1 - (align - 1))

/-- `align_up` -/
def alignUp (value align : ℕ) : ℕ := (value + align - 1) % 2 ^ 64 &&& (2 ^ 64 - 1 - (align - 1))

/-- `checked_add_u64` -/
def checkedAdd (a b : ℕ) : Option ℕ := if 2 ^ 64 - 1 - a < b then none else some (a + b)

/-- `struct boot_mem_region` -/
structure BootMemRegion where
  base : UInt64
  length : UInt64
  type : UInt32

/-- `BOOT_MEM_USABLE` -/
def bootMemUsable : UInt32 := 1

/-- `struct pmm_state`, with a bitmap of `n` bytes. -/
structure PmmState (n : ℕ) where
  bitmap : Bytes n
  maxPhys : ℕ
  frameCount : ℕ
  freeFrames : ℕ
  usedFrames : ℕ
  reservedFrames : ℕ
  ignoredFrames : ℕ
  nextHint : ℕ
  initialized : Bool

variable {n : ℕ}

/-- `mark_frame_free` -/
def markFrameFree (pmm : PmmState n) (frame : ℕ) : PmmState n :=
  if pmm.frameCount ≤ frame then pmm
  else if pmm.bitmap.testBit frame then
    { pmm with
      bitmap := pmm.bitmap.clearBit frame
      freeFrames := pmm.freeFrames + 1
      usedFrames := if 0 < pmm.usedFrames then pmm.usedFrames - 1 else pmm.usedFrames
      nextHint := if frame < pmm.nextHint then frame else pmm.nextHint }
  else pmm

/-- `mark_frame_used` -/
def markFrameUsed (pmm : PmmState n) (frame : ℕ) : PmmState n :=
  if pmm.frameCount ≤ frame then pmm
  else if !pmm.bitmap.testBit frame then
    { pmm with
      bitmap := pmm.bitmap.setBit frame
      freeFrames := if 0 < pmm.freeFrames then pmm.freeFrames - 1 else pmm.freeFrames
      usedFrames := pmm.usedFrames + 1 }
  else pmm

/-- The body of the loop of `mark_range_used`. -/
def reserveFrame (pmm : PmmState n) (frame : ℕ) : PmmState n :=
  let wasFree := !pmm.bitmap.testBit frame
  let pmm := markFrameUsed pmm frame
  if wasFree then { pmm with reservedFrames := (pmm.reservedFrames + 1) % 2 ^ 64 } else pmm

/-- The frames of the addresses `start`, `start + 4096`, … below `stop`. -/
def framesBetween (start stop : ℕ) : List ℕ :=
  (List.range ((stop - start + pageSize - 1) / pageSize)).map fun k =>
    (start + pageSize * k) / pageSize

/-- `mark_range_free` -/
def markRangeFree (pmm : PmmState n) (base length : ℕ) : PmmState n :=
  if length = 0 then pmm
  else
    match checkedAdd base length with
    | none => pmm
    | some last =>
        let start := alignUp base pageSize
        let stop := alignDown last pageSize
        if stop ≤ start then pmm
        else if pmm.maxPhys ≤ start then pmm
        else if pmm.maxPhys < stop then
          (framesBetween start pmm.maxPhys).foldl markFrameFree
            { pmm with ignoredFrames :=
              (pmm.ignoredFrames + (stop - pmm.maxPhys) / pageSize) % 2 ^ 64 }
        else (framesBetween start stop).foldl markFrameFree pmm

/-- `mark_range_used` -/
def markRangeUsed (pmm : PmmState n) (base length : ℕ) : PmmState n :=
  if length = 0 then pmm
  else
    match checkedAdd base length with
    | none => pmm
    | some last =>
        let start := alignDown base pageSize
        let stop := alignUp last pageSize
        if stop ≤ start then pmm
        else if pmm.maxPhys ≤ start then pmm
        else (framesBetween start (if pmm.maxPhys < stop then pmm.maxPhys else stop)).foldl
          reserveFrame pmm

/-- The state that `pmm_init_from_map` starts to work on, with all frames in use; `storage` is
what the bitmap held before. -/
def startState (storage : Bytes n) (maxPhysBytes : ℕ) : PmmState n :=
  { bitmap := storage.splice 0 ((maxPhysBytes / pageSize + 7) / 8) fun _ => 0xff
    maxPhys := maxPhysBytes
    frameCount := maxPhysBytes / pageSize
    freeFrames := 0
    usedFrames := maxPhysBytes / pageSize
    reservedFrames := 0
    ignoredFrames := 0
    nextHint := 0
    initialized := false }

/-- The first loop of `pmm_init_from_map`. -/
def freeUsable (regions : List BootMemRegion) (pmm : PmmState n) : PmmState n :=
  regions.foldl (fun pmm r =>
    if r.type = bootMemUsable then markRangeFree pmm r.base.toNat r.length.toNat else pmm) pmm

/-- The last loop of `pmm_init_from_map`. -/
def reserveOthers (regions : List BootMemRegion) (pmm : PmmState n) : PmmState n :=
  regions.foldl (fun pmm r =>
    if r.type ≠ bootMemUsable then markRangeUsed pmm r.base.toNat r.length.toNat else pmm) pmm

/-- `pmm_init_from_map`; `none` is the return value `false`. -/
def pmmInitFromMap (regions : List BootMemRegion) (storage : Bytes n) (maxPhysBytes : UInt64) :
    Option (PmmState n) :=
  if regions.length = 0 then none
  else if maxPhysBytes.toNat = 0 ∨ maxPhysBytes.toNat &&& (pageSize - 1) ≠ 0 then none
  else if n < (maxPhysBytes.toNat / pageSize + 7) / 8 then none
  else
    let pmm := startState storage maxPhysBytes.toNat
    let pmm := freeUsable regions pmm
    let pmm := markRangeUsed pmm 0 pageSize
    let pmm := reserveOthers regions pmm
    some { pmm with initialized := true }

/-- The frame is taken by `pmm_alloc_frame`. -/
def takeFrame (pmm : PmmState n) (frame : ℕ) : Option ℕ × PmmState n :=
  (some (frame * pageSize), { markFrameUsed pmm frame with nextHint := frame + 1 })

/-- `pmm_alloc_frame`; `none` is `PMM_INVALID_FRAME`. -/
def pmmAllocFrame (pmm : PmmState n) : Option ℕ × PmmState n :=
  if !pmm.initialized || pmm.freeFrames == 0 then (none, pmm)
  else
    match (List.range' pmm.nextHint (pmm.frameCount - pmm.nextHint)).find?
        (!pmm.bitmap.testBit ·) with
    | some frame => takeFrame pmm frame
    | none =>
        match (List.range pmm.nextHint).find? (!pmm.bitmap.testBit ·) with
        | some frame => takeFrame pmm frame
        | none => (none, pmm)

/-- `pmm_free_frame` -/
def pmmFreeFrame (pmm : PmmState n) (physAddr : ℕ) : Bool × PmmState n :=
  if !pmm.initialized then (false, pmm)
  else if physAddr &&& (pageSize - 1) ≠ 0 ∨ physAddr = 0 ∨ pmm.maxPhys ≤ physAddr then (false, pmm)
  else if !pmm.bitmap.testBit (physAddr / pageSize) then (false, pmm)
  else (true, markFrameFree pmm (physAddr / pageSize))

/-- `pmm_reserve_range` -/
def pmmReserveRange (pmm : PmmState n) (base length : ℕ) : Bool × PmmState n :=
  if !pmm.initialized || length == 0 then (false, pmm) else (true, markRangeUsed pmm base length)

/-- `pmm_is_frame_free` -/
def pmmIsFrameFree (pmm : PmmState n) (physAddr : ℕ) : Bool :=
  if !pmm.initialized then false
  else if physAddr &&& (pageSize - 1) ≠ 0 ∨ pmm.maxPhys ≤ physAddr then false
  else !pmm.bitmap.testBit (physAddr / pageSize)

/-! ## The arithmetic -/

theorem alignDown_eq {v : ℕ} (hv : v < 2 ^ 64) : alignDown v pageSize = v / pageSize * pageSize :=
  and_mask_eq hv (by decide : 12 ≤ 64)

/-- Rounding up is exact below the last page. -/
theorem alignUp_eq {v : ℕ} (hv : v ≤ 2 ^ 64 - pageSize) :
    alignUp v pageSize = (v + pageSize - 1) / pageSize * pageSize := by
  have hsmall : v + pageSize - 1 < 2 ^ 64 := by
    simp only [pageSize] at hv ⊢
    omega
  unfold alignUp
  rw [Nat.mod_eq_of_lt hsmall]
  exact and_mask_eq hsmall (by decide : 12 ≤ 64)

/-- Inside the last page it gives zero. -/
theorem alignUp_wrap {v : ℕ} (hlow : 2 ^ 64 - pageSize < v) (hv : v < 2 ^ 64) :
    alignUp v pageSize = 0 := by
  have hsmall : (v + pageSize - 1) % 2 ^ 64 < pageSize := by
    simp only [pageSize] at hlow ⊢
    omega
  unfold alignUp
  rw [show pageSize = 2 ^ 12 from rfl, and_mask_eq (Nat.mod_lt _ (by decide)) (by decide),
    ← show pageSize = 2 ^ 12 from rfl, Nat.div_eq_of_lt hsmall, Nat.zero_mul]

theorem checkedAdd_eq {a b : ℕ} (ha : a < 2 ^ 64) :
    checkedAdd a b = if a + b < 2 ^ 64 then some (a + b) else none := by
  unfold checkedAdd
  by_cases h : a + b < 2 ^ 64
  · rw [if_pos h, if_neg (by omega)]
  · rw [if_neg h, if_pos (by omega)]

/-- For multiples of the page size, the loops visit the frames between them. -/
theorem mem_framesBetween {a b f : ℕ} :
    f ∈ framesBetween (a * pageSize) (b * pageSize) ↔ a ≤ f ∧ f < b := by
  have hcount : (b * pageSize - a * pageSize + pageSize - 1) / pageSize = b - a := by
    rw [← Nat.sub_mul]
    simp only [pageSize]
    omega
  unfold framesBetween
  rw [hcount, List.mem_map]
  have hframe : ∀ k, (a * pageSize + pageSize * k) / pageSize = a + k := by
    intro k
    simp only [pageSize]
    omega
  simp only [hframe, List.mem_range]
  constructor
  · rintro ⟨k, hk, rfl⟩
    omega
  · rintro ⟨hlow, hhigh⟩
    exact ⟨f - a, by omega, by omega⟩

end Mcsos.Pmm
