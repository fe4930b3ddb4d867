import Mcsos.Lib.Act
import Mcsos.Lib.Align
import Mcsos.Lib.Radix
import Mathlib.Data.UInt

/-!
# The virtual memory manager

Four levels of page tables of 512 entries.  The tables are reached through two callbacks: one gives
the virtual address of a physical frame, the other a new frame.  The model has a pointer type `π`
for the virtual addresses of pages, and takes the answers of the allocator as a sequence, one for
each call; an allocator that is not there answers with `VMM_INVALID_PHYS`.
-/

namespace Mcsos.Vmm

open Act Radix

/-- The error codes of `vmm.h`. -/
inductive Err where
  | errInval
  | errNomem
  | errExists
  | errNotFound
  deriving DecidableEq, Repr

/-- `VMM_INVALID_PHYS` -/
def invalidPhys : UInt64 := 0xffffffffffffffff

def ptePresent : UInt64 := 1
def pteWritable : UInt64 := 2
def pteUser : UInt64 := 4
def pteWriteThrough : UInt64 := 8
def pteCacheDisable : UInt64 := 16
def pteHuge : UInt64 := 128
def pteGlobal : UInt64 := 256
def pteNoExecute : UInt64 := 0x8000000000000000

/-- `VMM_PTE_ADDR_MASK` -/
def pteAddrMask : UInt64 := 0x000ffffffffff000

/-- The flags that `vmm_map_page` takes over. -/
def allowed : UInt64 :=
  pteWritable ||| pteUser ||| pteWriteThrough ||| pteCacheDisable ||| pteGlobal ||| pteNoExecute

/-- `vmm_is_aligned_4k` -/
def isAligned4k (value : UInt64) : Bool := value &&& (4096 - 1) == 0

/-- A page table. -/
abbrev Page : Type := Fin 512 → UInt64

/-- `struct vmm_space`; `allocFrame k` is the answer of the allocator to call `k`. -/
structure Space (π : Type) where
  rootPaddr : UInt64
  physToVirt : UInt64 → Option π
  allocFrame : ℕ → UInt64

/-- `vmm_space_init` -/
def spaceInit {π : Type} (rootPaddr : UInt64) (physToVirt : UInt64 → Option π)
    (allocFrame : ℕ → UInt64) :
    Except Err (Space π) :=
  if isAligned4k rootPaddr then .ok ⟨rootPaddr, physToVirt, allocFrame⟩ else .error .errInval

/-- The memory, and the number of calls of the allocator so far. -/
structure State (π : Type) where
  mem : π → Page
  calls : ℕ

/-- `struct vmm_mapping` -/
structure Mapping where
  vaddr : UInt64
  paddr : UInt64
  flags : UInt64
  deriving DecidableEq, Repr

/-- `vmm_is_canonical` -/
def isCanonical (vaddr : UInt64) : Bool :=
  let sign := (vaddr >>> 47) &&& 1
  let upper := vaddr >>> 48
  if sign ≠ 0 then upper == 0xffff else upper == 0

/-- Nine bits of an address. -/
def tableIndex (vaddr shift : UInt64) : Fin 512 :=
  ⟨((vaddr >>> shift) &&& 0x1ff).toNat,
    Nat.lt_of_le_of_lt (by rw [UInt64.toNat_and]; exact Nat.and_le_right) (by decide : 0x1ff < 512)⟩

/-- `idx_pml4` -/
def idxPml4 (vaddr : UInt64) : Fin 512 := tableIndex vaddr 39

/-- `idx_pdpt` -/
def idxPdpt (vaddr : UInt64) : Fin 512 := tableIndex vaddr 30

/-- `idx_pd` -/
def idxPd (vaddr : UInt64) : Fin 512 := tableIndex vaddr 21

/-- `idx_pt` -/
def idxPt (vaddr : UInt64) : Fin 512 := tableIndex vaddr 12

variable {π : Type} [DecidableEq π]

/-- `table_from_phys`; `none` is the null pointer. -/
def tableFromPhys (space : Space π) (paddr : UInt64) : Option π :=
  if isAligned4k paddr then space.physToVirt paddr else none

/-- The pointer, or an error if it is null. -/
def nonNull {σ : Type} (p : Option π) (e : Err) : Act σ Err π :=
  match p with
  | none => fail e
  | some t => pure t

/-- `vmm_zero_page` -/
def zeroPage : Page := fun _ => 0

/-- Stores an entry of a table. -/
def State.set (s : State π) (table : π) (index : Fin 512) (entry : UInt64) : State π :=
  { s with mem := setEntry s.mem table index entry }

theorem State.set_mem (s : State π) (table : π) (index : Fin 512) (entry : UInt64) :
    (s.set table index entry).mem = setEntry s.mem table index entry := rfl

/-- The entry of a table for a new table below it. -/
def tableEntry (paddr : UInt64) : UInt64 := (paddr &&& pteAddrMask) ||| ptePresent ||| pteWritable

/-- The second half of `get_or_alloc_next_table`: a new table is allocated.  A frame that is not
mapped goes back to the allocator, whose state is not a part of the model. -/
def allocNextTable (space : Space π) (table : π) (index : Fin 512) : Act (State π) Err π := do
  let s ← get
  let newPaddr := space.allocFrame s.calls
  modify fun s => { s with calls := s.calls + 1 }
  failIf (newPaddr = invalidPhys ∨ isAligned4k newPaddr = false) .errNomem
  let newTable ← nonNull (tableFromPhys space newPaddr) .errInval
  modify fun s => { s with mem := Function.update s.mem newTable zeroPage }
  modify fun s => s.set table index (tableEntry newPaddr)
  pure newTable

/-- `get_or_alloc_next_table` -/
def getOrAllocNextTable (space : Space π) (table : π) (index : Fin 512) : Act (State π) Err π := do
  let s ← get
  let entry := s.mem table index
  if entry &&& ptePresent ≠ 0 then
    failIf (entry &&& pteHuge ≠ 0) .errExists
    nonNull (tableFromPhys space (entry &&& pteAddrMask)) .errInval
  else allocNextTable space table index

/-- The entry of a mapped page. -/
def pageEntry (paddr flags : UInt64) : UInt64 :=
  (paddr &&& pteAddrMask) ||| ptePresent ||| (flags &&& allowed)

/-- `vmm_map_page` -/
def mapPage (space : Space π) (vaddr paddr flags : UInt64) : Act (State π) Err Unit := do
  failIf (isCanonical vaddr = false ∨ isAligned4k vaddr = false ∨ isAligned4k paddr = false)
    .errInval
  let pml4 ← nonNull (tableFromPhys space space.rootPaddr) .errInval
  let pdpt ← getOrAllocNextTable space pml4 (idxPml4 vaddr)
  let pd ← getOrAllocNextTable space pdpt (idxPdpt vaddr)
  let pt ← getOrAllocNextTable space pd (idxPd vaddr)
  let s ← get
  failIf (s.mem pt (idxPt vaddr) &&& ptePresent ≠ 0) .errExists
  modify fun s => s.set pt (idxPt vaddr) (pageEntry paddr flags)

/-- One level of the walk of `vmm_query_page` and `vmm_unmap_page`. -/
def nextTable (space : Space π) (table : π) (index : Fin 512) : Act (State π) Err π := do
  let s ← get
  let e := s.mem table index
  failIf (e &&& ptePresent = 0 ∨ e &&& pteHuge ≠ 0) .errNotFound
  nonNull (tableFromPhys space (e &&& pteAddrMask)) .errInval

/-- The walk of `vmm_query_page` and `vmm_unmap_page`, which both write it out. -/
def walk (space : Space π) (vaddr : UInt64) : Act (State π) Err π := do
  failIf (isCanonical vaddr = false ∨ isAligned4k vaddr = false) .errInval
  let pml4 ← nonNull (tableFromPhys space space.rootPaddr) .errInval
  let pdpt ← nextTable space pml4 (idxPml4 vaddr)
  let pd ← nextTable space pdpt (idxPdpt vaddr)
  nextTable space pd (idxPd vaddr)

/-- `vmm_query_page` -/
def queryPage (space : Space π) (vaddr : UInt64) : Act (State π) Err Mapping := do
  let pt ← walk space vaddr
  let s ← get
  let e := s.mem pt (idxPt vaddr)
  failIf (e &&& ptePresent = 0) .errNotFound
  pure ⟨vaddr, e &&& pteAddrMask, e &&& ~~~ pteAddrMask⟩

/-- `vmm_unmap_page` -/
def unmapPage (space : Space π) (vaddr : UInt64) : Act (State π) Err Unit := do
  let pt ← walk space vaddr
  let s ← get
  failIf (s.mem pt (idxPt vaddr) &&& ptePresent = 0) .errNotFound
  modify fun s => s.set pt (idxPt vaddr) 0

/-! ## Bits -/

theorem isAligned4k_iff (v : UInt64) : isAligned4k v = true ↔ v.toNat % 4096 = 0 := by
  unfold isAligned4k
  rw [beq_iff_eq, ← UInt64.toNat_inj, UInt64.toNat_and]
  exact Eq.congr (Nat.and_two_pow_sub_one_eq_mod v.toNat 12) rfl

theorem tableIndex_val (vaddr : UInt64) {shift : UInt64} (hshift : shift.toNat < 64) :
    (tableIndex vaddr shift).val = vaddr.toNat / 2 ^ shift.toNat % 512 := by
  show ((vaddr >>> shift) &&& 0x1ff).toNat = _
  rw [UInt64.toNat_and, UInt64.toNat_shiftRight, Nat.mod_eq_of_lt hshift, Nat.shiftRight_eq_div_pow]
  exact Nat.and_two_pow_sub_one_eq_mod _ 9

theorem isCanonical_iff (v : UInt64) : isCanonical v = true ↔
    v.toNat / 2 ^ 48 = if v.toNat / 2 ^ 47 % 2 = 1 then 0xffff else 0 := by
  have hsign : ((v >>> 47) &&& 1).toNat = v.toNat / 2 ^ 47 % 2 := by
    rw [UInt64.toNat_and, UInt64.toNat_shiftRight, Nat.shiftRight_eq_div_pow]
    exact Nat.and_one_is_mod _
  have hupper : (v >>> 48).toNat = v.toNat / 2 ^ 48 := by
    rw [UInt64.toNat_shiftRight, Nat.shiftRight_eq_div_pow]
    rfl
  unfold isCanonical
  by_cases hone : v.toNat / 2 ^ 47 % 2 = 1
  · have hne : (v >>> 47) &&& 1 ≠ 0 := fun h => by
      rw [h] at hsign
      exact absurd (hsign.trans hone) (by decide)
    rw [if_pos hne, if_pos hone, beq_iff_eq, ← UInt64.toNat_inj, hupper]
    rfl
  · have heq : (v >>> 47) &&& 1 = 0 := by
      rw [← UInt64.toNat_inj, hsign]
      show _ = 0
      omega
    rw [if_neg (not_not.mpr heq), if_neg hone, beq_iff_eq, ← UInt64.toNat_inj, hupper]
    rfl

theorem pageEntry_addr (paddr flags : UInt64) :
    pageEntry paddr flags &&& pteAddrMask = paddr &&& pteAddrMask := by
  have hpresent : ptePresent &&& pteAddrMask = 0 := by decide
  rw [pageEntry, or_and, or_and, and_and_of_disjoint flags
    (by decide : allowed &&& pteAddrMask = 0), hpresent, UInt64.and_assoc, UInt64.and_self,
    UInt64.or_zero, UInt64.or_zero]

theorem pageEntry_flags (paddr flags : UInt64) :
    pageEntry paddr flags &&& ~~~ pteAddrMask = ptePresent ||| (flags &&& allowed) := by
  have hpresent : ptePresent &&& ~~~ pteAddrMask = ptePresent := by decide
  have hallowed : allowed &&& ~~~ pteAddrMask = allowed := by decide
  rw [pageEntry, or_and, or_and, and_and_of_disjoint paddr
    (by decide : pteAddrMask &&& ~~~ pteAddrMask = 0),
    hpresent, UInt64.and_assoc, hallowed, UInt64.zero_or]

theorem pageEntry_present (paddr flags : UInt64) : pageEntry paddr flags &&& ptePresent ≠ 0 := by
  have hallowed := and_and_of_disjoint flags (by decide : allowed &&& ptePresent = 0)
  rw [pageEntry, or_and, or_and, hallowed,
    and_and_of_disjoint paddr (by decide : pteAddrMask &&& ptePresent = 0)]
  decide

theorem tableEntry_present (paddr : UInt64) : tableEntry paddr &&& ptePresent ≠ 0 := by
  rw [tableEntry, or_and, or_and, and_and_of_disjoint paddr
    (by decide : pteAddrMask &&& ptePresent = 0)]
  decide

theorem tableEntry_huge (paddr : UInt64) : tableEntry paddr &&& pteHuge = 0 := by
  rw [tableEntry, or_and, or_and, and_and_of_disjoint paddr
    (by decide : pteAddrMask &&& pteHuge = 0)]
  decide

/-- An aligned address is what remains of it in an entry just when the entry has room for it. -/
theorem masked_eq_iff {p : UInt64} (hp : isAligned4k p = true) :
    p &&& pteAddrMask = p ↔ p.toNat < 2 ^ 52 := by
  constructor
  · intro hmask
    have hle : (p &&& pteAddrMask).toNat ≤ pteAddrMask.toNat := by
      rw [UInt64.toNat_and]
      exact Nat.and_le_right
    rw [hmask] at hle
    exact Nat.lt_of_le_of_lt hle (by decide)
  · intro hlow
    rw [← UInt64.toNat_inj, UInt64.toNat_and]
    rw [isAligned4k_iff] at hp
    calc p.toNat &&& pteAddrMask.toNat
        = p.toNat / 2 ^ 12 * 2 ^ 12 := and_mask_eq hlow (by decide : 12 ≤ 52)
      _ = p.toNat := Nat.div_mul_cancel (Nat.dvd_of_mod_eq_zero hp)

theorem tableEntry_masked (f : UInt64) : tableEntry f &&& pteAddrMask = f &&& pteAddrMask := by
  have hpresent : ptePresent &&& pteAddrMask = 0 := by decide
  have hwritable : pteWritable &&& pteAddrMask = 0 := by decide
  rw [tableEntry, or_and, or_and, UInt64.and_assoc, UInt64.and_self, hpresent, hwritable,
    UInt64.or_zero, UInt64.or_zero]

/-- A frame below `2 ^ 52` is read back from an entry. -/
theorem tableEntry_addr {paddr : UInt64} (haligned : isAligned4k paddr = true)
    (hlow : paddr.toNat < 2 ^ 52) : tableEntry paddr &&& pteAddrMask = paddr :=
  (tableEntry_masked paddr).trans ((masked_eq_iff haligned).mpr hlow)

/-! ## Addresses -/

/-- An address that can be mapped. -/
def Valid (vaddr : UInt64) : Prop := isCanonical vaddr = true ∧ isAligned4k vaddr = true

instance (vaddr : UInt64) : Decidable (Valid vaddr) := inferInstanceAs (Decidable (_ ∧ _))

/-- The indices of the three upper levels, the last one first. -/
def path (vaddr : UInt64) : List (Fin 512) := [idxPd vaddr, idxPdpt vaddr, idxPml4 vaddr]

theorem path_length_le (vaddr : UInt64) : (path vaddr).length ≤ 3 := Nat.le_refl 3

/-- The four indices determine an address that can be mapped. -/
theorem path_injective {v w : UInt64} (hv : Valid v) (hw : Valid w) (hpath : path v = path w)
    (hpt : idxPt v = idxPt w) : v = w := by
  obtain ⟨hv, hv'⟩ := hv
  obtain ⟨hw, hw'⟩ := hw
  rw [isCanonical_iff] at hv hw
  rw [isAligned4k_iff] at hv' hw'
  have hindex : ∀ {shift : UInt64}, shift.toNat < 64 → tableIndex v shift = tableIndex w shift →
      v.toNat / 2 ^ shift.toNat % 512 = w.toNat / 2 ^ shift.toNat % 512 := by
    intro shift hshift heq
    rw [← tableIndex_val v hshift, ← tableIndex_val w hshift, heq]
  simp only [path, List.cons.injEq, and_true] at hpath
  have h12 := hindex (by decide) hpt
  have h21 := hindex (by decide) hpath.1
  have h30 := hindex (by decide) hpath.2.1
  have h39 := hindex (by decide) hpath.2.2
  simp only [UInt64.reduceToNat] at h12 h21 h30 h39
  have hlow : v.toNat % 2 ^ 48 = w.toNat % 2 ^ 48 := by omega
  have hsign : v.toNat / 2 ^ 47 % 2 = w.toNat / 2 ^ 47 % 2 := by
    clear h12 h21 h30 h39 hv hw hv' hw'
    omega
  have hhigh : v.toNat / 2 ^ 48 = w.toNat / 2 ^ 48 := by
    rw [hv, hw, hsign]
  rw [← UInt64.toNat_inj, ← Nat.div_add_mod v.toNat (2 ^ 48), ← Nat.div_add_mod w.toNat (2 ^ 48),
    hlow, hhigh]

end Mcsos.Vmm
