import Mcsos.Lib.Reader

/-!
# The ELF loader

`m11_elf64_plan_load` checks an ELF image and writes down which parts of it go where, without
touching the memory of the process.  The image is a memory of bytes, and a header is a buffer inside
it; numbers are the unsigned integers of the source, with the wrap-around written out.

A header is fetched as a whole where the code reads its fields one by one, and not all of them, so
the program below looks at least at every byte the code looks at.
-/

namespace Mcsos.Elf

open Bytes Prog

/-- The error codes of the loader; `M11_ERR_NULL` is for null pointers, which the model does not
have. -/
inductive Err where
  | size
  | magic
  | elfClass
  | endian
  | version
  | type
  | machine
  | ehsize
  | phentsize
  | phbounds
  | align
  | segbounds
  | segrange
  | segcount
  | entry
  | flags
  deriving DecidableEq, Repr

/-- `sizeof(struct m11_elf64_ehdr)` -/
def ehdrSize : ℕ := 64

/-- `sizeof(struct m11_elf64_phdr)` -/
def phdrSize : ℕ := 56

/-- `M11_MAX_LOAD_SEGMENTS` -/
def maxLoadSegments : ℕ := 8

/-- `M11_PT_LOAD` -/
def ptLoad : ℕ := 1

/-- `M11_PF_X` -/
def pfX : ℕ := 1

/-- `M11_PF_W` -/
def pfW : ℕ := 2

/-- `M11_PF_R` -/
def pfR : ℕ := 4

/-- `struct m11_elf64_ehdr` -/
abbrev Ehdr : Type := Bytes ehdrSize

/-- `struct m11_elf64_phdr` -/
abbrev Phdr : Type := Bytes phdrSize

namespace Ehdr

def ident (eh : Ehdr) (i : ℕ) : ℕ := (eh.byte i).toNat
def type (eh : Ehdr) : ℕ := eh.u16 16
def machine (eh : Ehdr) : ℕ := eh.u16 18
def version (eh : Ehdr) : ℕ := eh.u32 20
def entry (eh : Ehdr) : ℕ := eh.u64 24
def phoff (eh : Ehdr) : ℕ := eh.u64 32
def ehsize (eh : Ehdr) : ℕ := eh.u16 52
def phentsize (eh : Ehdr) : ℕ := eh.u16 54
def phnum (eh : Ehdr) : ℕ := eh.u16 56

end Ehdr

namespace Phdr

def type (ph : Phdr) : ℕ := ph.u32 0
def flags (ph : Phdr) : ℕ := ph.u32 4
def offset (ph : Phdr) : ℕ := ph.u64 8
def vaddr (ph : Phdr) : ℕ := ph.u64 16
def filesz (ph : Phdr) : ℕ := ph.u64 32
def memsz (ph : Phdr) : ℕ := ph.u64 40
def align (ph : Phdr) : ℕ := ph.u64 48

end Phdr

/-- `struct m11_user_region` -/
structure UserRegion where
  base : UInt64
  limit : UInt64

/-- `struct m11_segment_plan` -/
structure SegmentPlan where
  fileOffset : ℕ
  vaddr : ℕ
  filesz : ℕ
  memsz : ℕ
  align : ℕ
  flags : ℕ
  deriving DecidableEq, Repr

/-- `struct m11_process_image_plan`; only the first `maxLoadSegments` segments exist. -/
structure ImagePlan where
  entry : ℕ
  segmentCount : ℕ
  segments : ℕ → SegmentPlan

/-- Returns the error code `e` if `c` holds. -/
def failIf (c : Prop) [Decidable c] (e : Err) : Except Err Unit := if c then .error e else .ok ()

/-- `m11_add_overflow_u64`; it returns the sum unless that wraps around. -/
def addOverflow (a b : ℕ) : Option ℕ :=
  if (a + b) % 2 ^ 64 < a then none else some ((a + b) % 2 ^ 64)

/-- `m11_is_power_of_two_u64` -/
def isPowerOfTwo (v : ℕ) : Bool := v != 0 && v &&& (v - 1) == 0

/-- `m11_zero_plan` -/
def zeroPlan : ImagePlan := ⟨0, 0, fun _ => ⟨0, 0, 0, 0, 0, 0⟩⟩

/-- `m11_validate_user_range` -/
def validateUserRange (region : UserRegion) (base size : ℕ) : Except Err Unit := do
  failIf (region.limit.toNat ≤ region.base.toNat) .segrange
  failIf (size = 0) .segrange
  match addOverflow base size with
  | none => .error .segrange
  | some last =>
      failIf (base < region.base.toNat ∨ region.limit.toNat < last ∨ last ≤ base) .segrange

/-- `m11_validate_ident` -/
def validateIdent (eh : Ehdr) : Except Err Unit := do
  failIf (eh.ident 0 ≠ 0x7f ∨ eh.ident 1 ≠ 'E'.toNat ∨ eh.ident 2 ≠ 'L'.toNat ∨
    eh.ident 3 ≠ 'F'.toNat) .magic
  failIf (eh.ident 4 ≠ 2) .elfClass
  failIf (eh.ident 5 ≠ 1) .endian
  failIf (eh.ident 6 ≠ 1 ∨ eh.version ≠ 1) .version

/-- `m11_validate_phdr_bounds` -/
def validatePhdrBounds (eh : Ehdr) (imageSize : UInt64) : Except Err Unit := do
  failIf (eh.phnum = 0) .phbounds
  failIf (eh.phentsize ≠ phdrSize) .phentsize
  let tableBytes := eh.phentsize * eh.phnum % 2 ^ 64
  failIf (eh.phnum ≠ 0 ∧ tableBytes / eh.phnum ≠ eh.phentsize) .phbounds
  match addOverflow eh.phoff tableBytes with
  | none => .error .phbounds
  | some last => failIf (imageSize.toNat < last ∨ imageSize.toNat < eh.phoff) .phbounds

/-- The alignment checks of `m11_validate_load_segment`. -/
def validateAlign (ph : Phdr) : Except Err Unit :=
  if ph.align ≠ 0 ∧ ph.align ≠ 1 then do
    failIf (isPowerOfTwo ph.align = false) .align
    failIf (ph.vaddr % ph.align ≠ ph.offset % ph.align) .align
  else .ok ()

/-- `m11_validate_load_segment` -/
def validateLoadSegment (ph : Phdr) (imageSize : UInt64) (region : UserRegion) :
    Except Err Unit := do
  failIf (ph.flags &&& (2 ^ 32 - 1 - (pfR ||| pfW ||| pfX)) ≠ 0) .flags
  failIf (ph.flags &&& pfW ≠ 0 ∧ ph.flags &&& pfX ≠ 0) .flags
  failIf (ph.memsz < ph.filesz) .segbounds
  validateAlign ph
  match addOverflow ph.offset ph.filesz with
  | none => .error .segbounds
  | some last =>
      failIf (imageSize.toNat < last ∨ imageSize.toNat < ph.offset) .segbounds
      validateUserRange region ph.vaddr ph.memsz

/-- The check of the entry point in `m11_elf64_plan_load`. -/
def validateEntry (eh : Ehdr) (region : UserRegion) : Except Err Unit :=
  match validateUserRange region eh.entry 1 with
  | .error _ => .error .entry
  | .ok _ => .ok ()

/-- The checks of `m11_elf64_plan_load` on the ELF header. -/
def validateHeader (eh : Ehdr) (imageSize : UInt64) (region : UserRegion) : Except Err Unit := do
  validateIdent eh
  failIf (eh.type ≠ 2 ∧ eh.type ≠ 3) .type
  failIf (eh.machine ≠ 62) .machine
  failIf (eh.ehsize ≠ ehdrSize) .ehsize
  validatePhdrBounds eh imageSize
  validateEntry eh region

/-- The entry of the plan for a program header. -/
def Phdr.plan (ph : Phdr) : SegmentPlan :=
  { fileOffset := ph.offset
    vaddr := ph.vaddr
    filesz := ph.filesz
    memsz := ph.memsz
    align := ph.align
    flags := ph.flags }

/-- The plan with another segment. -/
def ImagePlan.add (plan : ImagePlan) (seg : SegmentPlan) : ImagePlan :=
  { plan with
    segments := Function.update plan.segments plan.segmentCount seg
    segmentCount := plan.segmentCount + 1 }

/-- The loop of `m11_elf64_plan_load` over the program headers, from header `i` of the table at
`phoff` on, with what follows it. -/
def planSegments (imageSize : UInt64) (region : UserRegion) (phoff : ℕ) :
    (remaining i : ℕ) → ImagePlan → Prog ℕ UInt8 Err (Except Err Unit × ImagePlan)
  | 0, _, plan => pure (if plan.segmentCount = 0 then .error .segcount else .ok (), plan)
  | remaining + 1, i, plan => do
      let ph : Phdr ← readBytes phdrSize (phoff + phdrSize * i)
      if ph.type ≠ ptLoad then planSegments imageSize region phoff remaining (i + 1) plan
      else if maxLoadSegments ≤ plan.segmentCount then pure (.error .segcount, zeroPlan)
      else
        match validateLoadSegment ph imageSize region with
        | .error e => pure (.error e, zeroPlan)
        | .ok _ => planSegments imageSize region phoff remaining (i + 1) (plan.add ph.plan)

/-- `m11_elf64_plan_load`; it returns the status and what it leaves in `out_plan`, which is zeroed
at the start. -/
def planLoad (imageSize : UInt64) (region : UserRegion) :
    Prog ℕ UInt8 Err (Except Err Unit × ImagePlan) :=
  if imageSize.toNat < ehdrSize then pure (.error .size, zeroPlan)
  else do
    let eh : Ehdr ← readBytes ehdrSize 0
    match validateHeader eh imageSize region with
    | .error e => pure (.error e, zeroPlan)
    | .ok _ =>
        planSegments imageSize region eh.phoff eh.phnum 0 { zeroPlan with entry := eh.entry }

end Mcsos.Elf
