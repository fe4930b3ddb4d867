import Mcsos.Lib.Memory
import Mcsos.Lib.Align

/-!
# The kernel heap

A first-fit allocator.  The blocks are in the memory they manage: a header of 48 bytes, with links
to the blocks before and after, and then the payload.

All sums of sizes and addresses are cut to 64 bits.  A loop over the list of blocks has a fuel,
which is more than there can be blocks in the heap; a function that runs out of it returns `none`.
-/

namespace Mcsos.Kmem

open Bytes

/-- `KMEM_ALIGN` -/
def align : ℕ := 16

/-- `KMEM_MIN_SPLIT` -/
def minSplit : ℕ := 32

/-- `KMEM_MAGIC` -/
def magic : ℕ := 0x4d43534f53484541

/-- `sizeof(kmem_block_t)` -/
def headerSize : ℕ := 48

/-- A sum of 64 bits. -/
def add64 (a b : ℕ) : ℕ := (a + b) % 2 ^ 64

/-- A difference of 64 bits. -/
def sub64 (a b : ℕ) : ℕ := (a + (2 ^ 64 - b)) % 2 ^ 64

/-- The memory and the global variables of the allocator. -/
structure Heap where
  mem : Memory
  heapBase : ℕ
  heapEnd : ℕ
  head : ℕ
  initialized : Bool

/-! ## The fields of a block -/

namespace Heap

def magicOf (h : Heap) (block : ℕ) : ℕ := word h.mem 8 (add64 block 0)
def sizeOf (h : Heap) (block : ℕ) : ℕ := word h.mem 8 (add64 block 8)
def freeOf (h : Heap) (block : ℕ) : ℕ := word h.mem 4 (add64 block 16)
def prevOf (h : Heap) (block : ℕ) : ℕ := word h.mem 8 (add64 block 32)
def nextOf (h : Heap) (block : ℕ) : ℕ := word h.mem 8 (add64 block 40)

def setMagic (h : Heap) (block v : ℕ) : Heap := { h with mem := h.mem.store (add64 block 0) 8 v }
def setSize (h : Heap) (block v : ℕ) : Heap := { h with mem := h.mem.store (add64 block 8) 8 v }
def setFree (h : Heap) (block v : ℕ) : Heap := { h with mem := h.mem.store (add64 block 16) 4 v }
def setPrev (h : Heap) (block v : ℕ) : Heap := { h with mem := h.mem.store (add64 block 32) 8 v }
def setNext (h : Heap) (block v : ℕ) : Heap := { h with mem := h.mem.store (add64 block 40) 8 v }

end Heap

/-- `kmem_align_up_size` -/
def alignUpSize (value align : ℕ) : ℕ :=
  if align = 0 then value
  else if align &&& (align - 1) ≠ 0 then 0
  else if 2 ^ 64 - 1 - (align - 1) < value then 0
  else (value + (align - 1)) &&& (2 ^ 64 - 1 - (align - 1))

/-- `kmem_align_up_ptr` -/
def alignUpPtr (value align : ℕ) : ℕ :=
  if align &&& sub64 align 1 ≠ 0 then 0
  else if 2 ^ 64 - 1 - sub64 align 1 < value then 0
  else (value + sub64 align 1) &&& (2 ^ 64 - 1 - sub64 align 1)

/-- `kmem_payload` -/
def payload (block : ℕ) : ℕ := add64 block headerSize

/-- `kmem_header_from_payload` -/
def headerFromPayload (ptr : ℕ) : ℕ := sub64 ptr headerSize

/-- `kmem_ptr_in_heap` -/
def ptrInHeap (h : Heap) (ptr : ℕ) : Bool := h.initialized && h.heapBase ≤ ptr && ptr < h.heapEnd

/-! ## Splitting and merging blocks -/

/-- The stores of `kmem_split_if_useful`, for a new block at `newBlock`. -/
def split (h : Heap) (block wanted newBlock : ℕ) : Heap :=
  let consumed := sub64 newBlock (payload block)
  let h₁ := h.setMagic newBlock magic
  let h₁ := h₁.setSize newBlock (sub64 (sub64 (h₁.sizeOf block) consumed) headerSize)
  let h₁ := h₁.setFree newBlock 1
  let h₁ := h₁.setPrev newBlock block
  let h₁ := h₁.setNext newBlock (h₁.nextOf block)
  let h₂ := if h₁.nextOf block ≠ 0 then h₁.setPrev (h₁.nextOf block) newBlock else h₁
  (h₂.setNext block newBlock).setSize block wanted

/-- `kmem_split_if_useful` -/
def splitIfUseful (h : Heap) (block wanted : ℕ) : Heap :=
  let header := alignUpSize headerSize align
  let newAddr := alignUpPtr (add64 (payload block) wanted) align
  let consumed := sub64 newAddr (payload block)
  if header = 0 then h
  else if h.sizeOf block < add64 (add64 wanted header) minSplit then h
  else if newAddr = 0 then h
  else if h.heapEnd ≤ add64 newAddr headerSize then h
  else if h.sizeOf block ≤ add64 (add64 consumed headerSize) minSplit then h
  else split h block wanted newAddr

/-- The body of the loop of `kmem_coalesce_forward`: the block `next` goes into `block`. -/
def merge (h : Heap) (block next : ℕ) : Heap :=
  let h₁ := h.setSize block (add64 (h.sizeOf block) (add64 headerSize (h.sizeOf next)))
  let h₁ := h₁.setNext block (h₁.nextOf next)
  let h₂ := if h₁.nextOf next ≠ 0 then h₁.setPrev (h₁.nextOf next) block else h₁
  (((h₂.setMagic next 0).setSize next 0).setPrev next 0).setNext next 0

/-- `kmem_coalesce_forward` -/
def coalesceForward (block : ℕ) : (fuel : ℕ) → Heap → Option Heap
  | 0, _ => none
  | fuel + 1, h =>
      if block ≠ 0 ∧ h.nextOf block ≠ 0 ∧ h.freeOf (h.nextOf block) ≠ 0 then
        if alignUpPtr (add64 (payload block) (h.sizeOf block)) align ≠ h.nextOf block then some h
        else coalesceForward block fuel (merge h block (h.nextOf block))
      else some h

/-! ## The interface -/

/-- The loop of `kmem_validate`; `guard` is the number of blocks that it still accepts. -/
def validateFrom (h : Heap) : (guard cur prev cursor : ℕ) → Int
  | 0, cur, _, _ => if cur = 0 then 0 else -3
  | guard + 1, cur, prev, cursor =>
      if cur = 0 then 0
      else if cur ≠ cursor then -4
      else if cur < h.heapBase ∨ h.heapEnd < add64 cur headerSize then -5
      else if h.magicOf cur ≠ magic then -6
      else if h.prevOf cur ≠ prev then -7
      else if sub64 h.heapEnd (payload cur) < h.sizeOf cur then -8
      else
        let cursor := alignUpPtr (add64 (payload cur) (h.sizeOf cur)) align
        if cursor = 0 ∨ h.heapEnd < cursor then -9
        else validateFrom h guard (h.nextOf cur) cur cursor

/-- `kmem_validate` -/
def validate (h : Heap) : Int :=
  if h.initialized = false ∨ h.heapBase = 0 ∨ h.heapEnd ≤ h.heapBase ∨ h.head = 0 then -1
  else if h.head ≠ h.heapBase then -2
  else validateFrom h 1048576 h.head 0 h.heapBase

/-- The state that `kmem_init` sets up, with `usable` bytes from `start` on. -/
def fresh (mem : Memory) (start usable : ℕ) : Heap :=
  let h : Heap := ⟨mem, start, add64 start usable, start, true⟩
  let h := h.setMagic start magic
  let h := h.setSize start (sub64 usable headerSize)
  let h := h.setFree start 1
  let h := h.setPrev start 0
  h.setNext start 0

/-- `kmem_init` -/
def init (base bytes : ℕ) (h : Heap) : Int × Heap :=
  let start := alignUpPtr base align
  let lost := sub64 start base
  let usable := sub64 bytes lost &&& (2 ^ 64 - 1 - (align - 1))
  if base = 0 ∨ bytes < headerSize + minSplit then (-1, h)
  else if start = 0 ∨ start < base then (-2, h)
  else if bytes ≤ add64 lost (headerSize + minSplit) then (-3, h)
  else if usable ≤ headerSize + minSplit then (-4, h)
  else (validate (fresh h.mem start usable), fresh h.mem start usable)

/-- The fuel of the loops. -/
def Heap.fuel (h : Heap) : ℕ := h.heapEnd - h.heapBase

/-- The loop of `kmem_alloc`; it returns the null pointer or a payload. -/
def allocFrom (wanted : ℕ) (h : Heap) : (fuel cur : ℕ) → Option (ℕ × Heap)
  | 0, _ => none
  | fuel + 1, cur =>
      if cur = 0 then some (0, h)
      else if h.magicOf cur ≠ magic then some (0, h)
      else if h.freeOf cur ≠ 0 ∧ wanted ≤ h.sizeOf cur then
        some (payload cur, (splitIfUseful h cur wanted).setFree cur 0)
      else allocFrom wanted h fuel (h.nextOf cur)

/-- `kmem_alloc` -/
def alloc (bytes : ℕ) (h : Heap) : Option (ℕ × Heap) :=
  let wanted := alignUpSize bytes align
  if h.initialized = false ∨ bytes = 0 then some (0, h)
  else if wanted = 0 then some (0, h)
  else allocFrom wanted h h.fuel h.head

/-- `kmem_calloc` -/
def calloc (count bytes : ℕ) (h : Heap) : Option (ℕ × Heap) :=
  if count ≠ 0 ∧ (2 ^ 64 - 1) / count < bytes then some (0, h)
  else
    let total := count * bytes % 2 ^ 64
    match alloc total h with
    | none => none
    | some (ptr, h) => if ptr ≠ 0 then some (ptr, { h with mem := h.mem.fill ptr 0 total })
        else some (ptr, h)

/-- The merging of `kmem_free_checked`, with the following and then with the preceding blocks. -/
def coalesce (h : Heap) (block : ℕ) : Option Heap :=
  match coalesceForward block h.fuel h with
  | none => none
  | some h =>
      if h.prevOf block ≠ 0 ∧ h.freeOf (h.prevOf block) ≠ 0 then
        coalesceForward (h.prevOf block) h.fuel h
      else some h

/-- `kmem_free_checked` -/
def freeChecked (ptr : ℕ) (h : Heap) : Option (Int × Heap) :=
  let block := headerFromPayload ptr
  if ptr = 0 then some (0, h)
  else if ptrInHeap h ptr = false then some (-1, h)
  else if ptr &&& (align - 1) ≠ 0 then some (-2, h)
  else if ptrInHeap h block = false ∨ h.magicOf block ≠ magic then some (-3, h)
  else if h.freeOf block ≠ 0 then some (-4, h)
  else
    match coalesce (h.setFree block 1) block with
    | none => none
    | some h => some (validate h, h)

end Mcsos.Kmem
