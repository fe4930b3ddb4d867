import Mcsos.Lib.X64

/-!
# The interrupt descriptor table

Model of `kernel/arch/x86_64/idt.c` and `syscall_arch.c`.  The table has an entry for every vector;
an entry is a packed record of sixteen bytes in which the address of the handler stands in three
pieces.  `descriptor` is how the processor reads these bytes; behind the boot code it finds the
stubs of the 48 exceptions and device interrupts, the gate of the system calls, and nothing else.
-/

namespace Mcsos.Arch

open Bytes X64

/-- `X86_64_IDT_VECTOR_COUNT` -/
def idtVectorCount : ℕ := 256

/-- `X86_64_KERNEL_CODE_SELECTOR` -/
def kernelCodeSelector : UInt16 := 0x28

/-- `X86_64_IDT_GATE_INTERRUPT` -/
def idtGateInterrupt : UInt8 := 0x8E

/-- `X86_64_IDT_GATE_TRAP` and `IDT_GATE_TRAP` -/
def idtGateTrap : UInt8 := 0x8F

/-- `x86_64_idt_entry_t` -/
structure IdtEntry where
  offsetLow : UInt16
  selector : UInt16
  ist : UInt8
  typeAttributes : UInt8
  offsetMid : UInt16
  offsetHigh : UInt32
  reserved : UInt32
  deriving DecidableEq, Repr

/-- The packed bytes of an entry. -/
def IdtEntry.byte (e : IdtEntry) (i : ℕ) : UInt8 :=
  if i < 2 then wordBytes e.offsetLow.toNat i
  else if i < 4 then wordBytes e.selector.toNat (i - 2)
  else if i = 4 then e.ist
  else if i = 5 then e.typeAttributes
  else if i < 8 then wordBytes e.offsetMid.toNat (i - 6)
  else if i < 12 then wordBytes e.offsetHigh.toNat (i - 8)
  else wordBytes e.reserved.toNat (i - 12)

/-- `x86_64_idtr_t` -/
structure Idtr where
  limit : UInt16
  base : UInt64
  deriving DecidableEq, Repr

/-- The array `idt`; an index is a `uint8_t`. -/
abbrev Idt : Type := UInt8 → IdtEntry

/-- `x86_64_idt_set_gate` -/
def idtSetGate (idt : Idt) (vector : UInt8) (handler : UInt64) (typeAttributes : UInt8) : Idt :=
  Function.update idt vector
    { offsetLow := (handler &&& 0xFFFF).toUInt16
      selector := kernelCodeSelector
      ist := 0
      typeAttributes := typeAttributes
      offsetMid := ((handler >>> 16) &&& 0xFFFF).toUInt16
      offsetHigh := ((handler >>> 32) &&& 0xFFFFFFFF).toUInt32
      reserved := 0 }

/-- The type of the gate of one of the 48 stubs. -/
def gateType (vector : UInt8) : UInt8 := if vector = 3 then idtGateTrap else idtGateInterrupt

/-- The two loops of `x86_64_idt_init`, with the table `x86_64_exception_stubs`.  The second loop
reads 48 addresses: `isr.S` defines that many, though the array in `isr.h` is declared with 32. -/
def idtInit (stubs : ℕ → UInt64) (idt : Idt) : Idt :=
  (List.range 48).foldl
    (fun idt v => idtSetGate idt (UInt8.ofNat v) (stubs v) (gateType (UInt8.ofNat v)))
    ((List.range idtVectorCount).foldl (fun idt i => idtSetGate idt (UInt8.ofNat i) 0 0) idt)

/-- What `x86_64_idt_init` gives to `lidt`, for a table at `base`; an entry has 16 bytes. -/
def idtrInit (base : UInt64) : Idtr := ⟨UInt16.ofNat (idtVectorCount * 16 - 1), base⟩

/-- `syscall_arch_init` -/
def syscallArchInit (int80Stub : UInt64) (idt : Idt) : Idt :=
  idtSetGate idt 0x80 int80Stub idtGateTrap

/-- The table behind the boot code. -/
def bootIdt (stubs : ℕ → UInt64) (int80Stub : UInt64) (idt : Idt) : Idt :=
  syscallArchInit int80Stub (idtInit stubs idt)

/-! ### The processor's view -/

/-- What the processor finds in a descriptor. -/
structure Descriptor where
  gate : Gate
  ist : UInt8
  dpl : UInt8
  deriving DecidableEq, Repr

/-- The processor's reading of the sixteen bytes of a descriptor; a gate that is not present, or
that is neither an interrupt gate nor a trap gate, delivers nothing. -/
def descriptor (byte : ℕ → UInt8) : Option Descriptor :=
  let kind := byte 5 &&& 0xF
  if byte 5 &&& 0x80 = 0 then none
  else if kind ≠ 0xE ∧ kind ≠ 0xF then none
  else some
    { gate :=
        { offset := UInt64.ofNat (word byte 2 0 + 2 ^ 16 * word byte 2 6 + 2 ^ 32 * word byte 4 8)
          selector := UInt16.ofNat (word byte 2 2)
          disables := kind = 0xE }
      ist := byte 4 &&& 7
      dpl := (byte 5 >>> 5) &&& 3 }

/-- The descriptor of a vector in memory; the vector must lie inside the limit. -/
def readDescriptor (mem : Ram) (idtr : Idtr) (v : UInt8) : Option Descriptor :=
  if idtr.limit.toNat < 16 * v.toNat + 15 then none
  else descriptor fun i => mem (idtr.base + UInt64.ofNat (16 * v.toNat + i))

/-- The array stands in memory. -/
def IdtLoaded (mem : Ram) (base : UInt64) (idt : Idt) : Prop :=
  ∀ (v : UInt8) (i : ℕ), i < 16 → mem (base + UInt64.ofNat (16 * v.toNat + i)) = (idt v).byte i

/-- The gate of one of the 48 stubs. -/
def stubGate (stubs : ℕ → UInt64) (v : ℕ) : Gate := ⟨stubs v, kernelCodeSelector, v ≠ 3⟩

/-- The gate of the system calls. -/
def int80Gate (int80Stub : UInt64) : Gate := ⟨int80Stub, kernelCodeSelector, false⟩

/-- What the kernel wants the processor to find. -/
def bootDescriptor (stubs : ℕ → UInt64) (int80Stub : UInt64) (v : UInt8) : Option Descriptor :=
  if v = 0x80 then some ⟨int80Gate int80Stub, 0, 0⟩
  else if v.toNat < 48 then some ⟨stubGate stubs v.toNat, 0, 0⟩
  else none

/-! ### Encoding and decoding -/

/-- The three pieces of an address are the whole address. -/
theorem pieces_eq (h : UInt64) :
    UInt64.ofNat ((h &&& 0xFFFF).toUInt16.toNat + 2 ^ 16 * ((h >>> 16) &&& 0xFFFF).toUInt16.toNat +
      2 ^ 32 * ((h >>> 32) &&& 0xFFFFFFFF).toUInt32.toNat) = h := by
  have hlt := h.toNat_lt
  have hlow : (h &&& 0xFFFF).toUInt16.toNat = h.toNat % 2 ^ 16 := by
    rw [UInt64.toNat_toUInt16, UInt64.toNat_and]
    have hmask : h.toNat &&& (2 ^ 16 - 1) = h.toNat % 2 ^ 16 := Nat.and_two_pow_sub_one_eq_mod _ 16
    have hconst : (0xFFFF : UInt64).toNat = 2 ^ 16 - 1 := by decide
    rw [hconst, hmask, Nat.mod_mod]
  have hmid : ((h >>> 16) &&& 0xFFFF).toUInt16.toNat = h.toNat / 2 ^ 16 % 2 ^ 16 := by
    rw [UInt64.toNat_toUInt16, UInt64.toNat_and, UInt64.toNat_shiftRight]
    have hconst : (0xFFFF : UInt64).toNat = 2 ^ 16 - 1 := by decide
    have hshift : (16 : UInt64).toNat % 64 = 16 := by decide
    rw [hconst, hshift, Nat.and_two_pow_sub_one_eq_mod, Nat.mod_mod, Nat.shiftRight_eq_div_pow]
  have hhigh : ((h >>> 32) &&& 0xFFFFFFFF).toUInt32.toNat = h.toNat / 2 ^ 32 := by
    rw [UInt64.toNat_toUInt32, UInt64.toNat_and, UInt64.toNat_shiftRight]
    have hconst : (0xFFFFFFFF : UInt64).toNat = 2 ^ 32 - 1 := by decide
    have hshift : (32 : UInt64).toNat % 64 = 32 := by decide
    rw [hconst, hshift, Nat.and_two_pow_sub_one_eq_mod, Nat.mod_mod, Nat.shiftRight_eq_div_pow]
    omega
  rw [hlow, hmid, hhigh]
  refine UInt64.toNat_inj.mp ?_
  rw [UInt64.toNat_ofNat']
  omega

/-- A field of an entry, read back from its bytes. -/
theorem word_byte {e : IdtEntry} {width off v : ℕ} (hv : v < 256 ^ width)
    (h : ∀ i < width, e.byte (off + i) = wordBytes v i) : word e.byte width off = v := by
  calc word e.byte width off = word (wordBytes v) width 0 :=
    word_congr fun i hi => by rw [h i hi, Nat.zero_add]
    _ = v % 256 ^ width := word_wordBytes v width
    _ = v := Nat.mod_eq_of_lt hv

theorem word_offsetLow (e : IdtEntry) : word e.byte 2 0 = e.offsetLow.toNat :=
  word_byte e.offsetLow.toNat_lt fun i hi => by
    rw [IdtEntry.byte, if_pos (by omega), Nat.zero_add]

theorem word_selector (e : IdtEntry) : word e.byte 2 2 = e.selector.toNat :=
  word_byte e.selector.toNat_lt fun i hi => by
    rw [IdtEntry.byte, if_neg (by omega), if_pos (by omega), Nat.add_sub_cancel_left]

theorem word_offsetMid (e : IdtEntry) : word e.byte 2 6 = e.offsetMid.toNat :=
  word_byte e.offsetMid.toNat_lt fun i hi => by
    rw [IdtEntry.byte, if_neg (by omega), if_neg (by omega), if_neg (by omega), if_neg (by omega),
      if_pos (by omega), Nat.add_sub_cancel_left]

theorem word_offsetHigh (e : IdtEntry) : word e.byte 4 8 = e.offsetHigh.toNat :=
  word_byte e.offsetHigh.toNat_lt fun i hi => by
    rw [IdtEntry.byte, if_neg (by omega), if_neg (by omega), if_neg (by omega), if_neg (by omega),
      if_neg (by omega), if_pos (by omega), Nat.add_sub_cancel_left]

/-- An entry as the processor reads it, if its type is that of a gate that is present. -/
theorem descriptor_byte {e : IdtEntry} (hpresent : e.typeAttributes &&& 0x80 ≠ 0)
    (hkind : e.typeAttributes &&& 0xF = 0xE ∨ e.typeAttributes &&& 0xF = 0xF) :
    descriptor e.byte = some
      { gate :=
          { offset := UInt64.ofNat
              (e.offsetLow.toNat + 2 ^ 16 * e.offsetMid.toNat + 2 ^ 32 * e.offsetHigh.toNat)
            selector := e.selector
            disables := e.typeAttributes &&& 0xF = 0xE }
        ist := e.ist &&& 7
        dpl := (e.typeAttributes >>> 5) &&& 3 } := by
  have htype : e.byte 5 = e.typeAttributes := rfl
  have hist : e.byte 4 = e.ist := rfl
  have hgate : ¬ (e.typeAttributes &&& 0xF ≠ 0xE ∧ e.typeAttributes &&& 0xF ≠ 0xF) := fun h =>
    hkind.elim h.1 h.2
  simp only [descriptor, htype, hist, word_offsetLow, word_selector, word_offsetMid,
    word_offsetHigh, if_neg hpresent, if_neg hgate, UInt16.ofNat_toNat]

/-- A gate as it was set. -/
theorem descriptor_setGate (idt : Idt) (vector : UInt8) (handler : UInt64) {typeAttributes : UInt8}
    (hpresent : typeAttributes &&& 0x80 ≠ 0)
    (hkind : typeAttributes &&& 0xF = 0xE ∨ typeAttributes &&& 0xF = 0xF) :
    descriptor (idtSetGate idt vector handler typeAttributes vector).byte = some
      { gate := ⟨handler, kernelCodeSelector, typeAttributes &&& 0xF = 0xE⟩
        ist := 0
        dpl := (typeAttributes >>> 5) &&& 3 } := by
  rw [idtSetGate, Function.update_self, descriptor_byte hpresent hkind]
  simp only [pieces_eq]
  rfl

theorem setGate_of_ne (idt : Idt) {vector v : UInt8} (handler : UInt64) (typeAttributes : UInt8)
    (h : v ≠ vector) :
    idtSetGate idt vector handler typeAttributes v = idt v := Function.update_of_ne h _ _

/-! ### The loops -/

/-- A loop over the vectors below `n` sets exactly these. -/
theorem foldl_setGate (handler : ℕ → UInt64) (type : UInt8 → UInt8) (idt : Idt) {n : ℕ}
    (hn : n ≤ 256) (v : UInt8) :
    (List.range n).foldl
      (fun idt i => idtSetGate idt (UInt8.ofNat i) (handler i) (type (UInt8.ofNat i))) idt v =
      if v.toNat < n then idtSetGate idt v (handler v.toNat) (type v) v else idt v := by
  induction n with
  | zero => rfl
  | succ n ih =>
      rw [List.range_succ, List.foldl_append, List.foldl_cons, List.foldl_nil]
      have hn8 : (UInt8.ofNat n).toNat = n := by
        rw [UInt8.toNat_ofNat']
        omega
      by_cases hv : v = UInt8.ofNat n
      · have hvn : v.toNat = n := by rw [hv, hn8]
        rw [if_pos (by omega), hvn, ← hv]
        simp only [idtSetGate, Function.update_self]
      · have hvn : v.toNat ≠ n := fun h => hv (UInt8.toNat_inj.mp (h.trans hn8.symm))
        rw [setGate_of_ne _ _ _ hv, ih (by omega)]
        by_cases hlt : v.toNat < n
        · rw [if_pos hlt, if_pos (by omega)]
        · rw [if_neg hlt, if_neg (by omega)]

theorem bootIdt_int80 (stubs : ℕ → UInt64) (int80Stub : UInt64) (idt : Idt) :
    descriptor (bootIdt stubs int80Stub idt 0x80).byte = some ⟨int80Gate int80Stub, 0, 0⟩ :=
  descriptor_setGate (idtInit stubs idt) 0x80 int80Stub (by decide : idtGateTrap &&& 0x80 ≠ 0)
    (Or.inr (by decide))

theorem bootIdt_stub (stubs : ℕ → UInt64) (int80Stub : UInt64) (idt : Idt) {v : UInt8}
    (hv : v.toNat < 48) :
    descriptor (bootIdt stubs int80Stub idt v).byte = some ⟨stubGate stubs v.toNat, 0, 0⟩ := by
  have hne : v ≠ 0x80 := by
    rintro rfl
    exact absurd hv (by decide)
  have hthree : v = 3 ↔ v.toNat = 3 := ⟨fun h => by rw [h]; rfl, fun h => UInt8.toNat_inj.mp h⟩
  rw [bootIdt, syscallArchInit, setGate_of_ne _ _ _ hne, idtInit,
    foldl_setGate stubs gateType _ (by decide) v, if_pos hv]
  by_cases h3 : v = 3
  · rw [gateType, if_pos h3, descriptor_setGate _ _ _ (by decide) (Or.inr (by decide))]
    simp only [stubGate, hthree.mp h3]
    rfl
  · have hne3 : v.toNat ≠ 3 := fun h => h3 (hthree.mpr h)
    rw [gateType, if_neg h3, descriptor_setGate _ _ _ (by decide) (Or.inl (by decide))]
    simp only [stubGate, hne3, ne_eq, not_false_eq_true, decide_true]
    rfl

theorem bootIdt_other (stubs : ℕ → UInt64) (int80Stub : UInt64) (idt : Idt) {v : UInt8}
    (hne : v ≠ 0x80) (hv : ¬ v.toNat < 48) :
    descriptor (bootIdt stubs int80Stub idt v).byte = none := by
  rw [bootIdt, syscallArchInit, setGate_of_ne _ _ _ hne, idtInit,
    foldl_setGate stubs gateType _ (by decide) v, if_neg hv,
    foldl_setGate (fun _ => 0) (fun _ => 0) _ (by decide) v,
    if_pos (show v.toNat < idtVectorCount from v.toNat_lt), idtSetGate, Function.update_self]
  rfl

theorem readDescriptor_bootIdt {stubs : ℕ → UInt64} {int80Stub base : UInt64}
    {idt : Idt} {mem : Ram} (hloaded : IdtLoaded mem base (bootIdt stubs int80Stub idt))
    (v : UInt8) :
    readDescriptor mem (idtrInit base) v = bootDescriptor stubs int80Stub v := by
  have hlimit : ¬ (idtrInit base).limit.toNat < 16 * v.toNat + 15 := by
    have hlt : v.toNat < 256 := v.toNat_lt
    have h4095 : (idtrInit base).limit.toNat = 4095 := rfl
    omega
  have hbytes : descriptor (fun i => mem ((idtrInit base).base + UInt64.ofNat (16 * v.toNat + i))) =
      descriptor (bootIdt stubs int80Stub idt v).byte := by
    have hword : ∀ width off, off + width ≤ 16 →
        word (fun i => mem ((idtrInit base).base + UInt64.ofNat (16 * v.toNat + i))) width off =
          word (bootIdt stubs int80Stub idt v).byte width off :=
      fun width off hoff => word_congr fun i hi => hloaded v (off + i) (by omega)
    simp only [descriptor]
    rw [hword 2 0 (by decide), hword 2 6 (by decide), hword 4 8 (by decide), hword 2 2 (by decide)]
    have h4 := hloaded v 4 (by decide)
    have h5 := hloaded v 5 (by decide)
    simp only [idtrInit, h4, h5]
  rw [readDescriptor, if_neg hlimit, hbytes, bootDescriptor]
  by_cases h80 : v = 0x80
  · rw [if_pos h80, h80]
    exact bootIdt_int80 stubs int80Stub idt
  · rw [if_neg h80]
    by_cases hv : v.toNat < 48
    · rw [if_pos hv]
      exact bootIdt_stub stubs int80Stub idt hv
    · rw [if_neg hv]
      exact bootIdt_other stubs int80Stub idt h80 hv

/-- **The gates after boot.**  Whatever the table held before, the processor finds for each of the
48 exceptions and device interrupts its stub, with interrupts disabled for all but the breakpoint,
for vector `0x80` the stub of the system calls, and nothing for any other vector; all gates are for
the kernel's own privilege level. -/
theorem boot_gates_exact (stubs : ℕ → UInt64) (int80Stub base : UInt64) (idt : Idt) (mem : Ram)
    (hloaded : IdtLoaded mem base (bootIdt stubs int80Stub idt)) (v : UInt8) :
    (v.toNat < 48 → readDescriptor mem (idtrInit base) v =
      some ⟨⟨stubs v.toNat, 0x28, v ≠ 3⟩, 0, 0⟩) ∧
      (v = 0x80 → readDescriptor mem (idtrInit base) v = some ⟨⟨int80Stub, 0x28, false⟩, 0, 0⟩) ∧
      (48 ≤ v.toNat → v ≠ 0x80 → readDescriptor mem (idtrInit base) v = none) := by
  rw [readDescriptor_bootIdt hloaded]
  refine ⟨fun hv => ?_, fun h80 => ?_, fun hv h80 => ?_⟩
  · have hne : v ≠ 0x80 := by
      rintro rfl
      exact absurd hv (by decide)
    have hthree : v.toNat ≠ 3 ↔ v ≠ 3 :=
      not_congr ⟨fun h => UInt8.toNat_inj.mp h, fun h => by rw [h]; rfl⟩
    rw [bootDescriptor, if_neg hne, if_pos hv]
    simp only [stubGate, hthree, kernelCodeSelector]
  · rw [bootDescriptor, if_pos h80]
    rfl
  · rw [bootDescriptor, if_neg h80, if_neg (Nat.not_lt.mpr hv)]

/-- A memory filled with copies of a table, the first one at address zero. -/
def tableMemory (idt : Idt) : Ram := fun x => (idt (UInt8.ofNat (x.toNat / 16))).byte (x.toNat % 16)

theorem tableMemory_loaded (idt : Idt) : IdtLoaded (tableMemory idt) 0 idt := by
  intro v i hi
  have hv : v.toNat < 256 := v.toNat_lt
  have haddr : (0 + UInt64.ofNat (16 * v.toNat + i)).toNat = 16 * v.toNat + i := by
    rw [UInt64.zero_add, UInt64.toNat_ofNat', Nat.mod_eq_of_lt (by omega)]
  have hdiv : (16 * v.toNat + i) / 16 = v.toNat := by omega
  have hmod : (16 * v.toNat + i) % 16 = i := by omega
  rw [tableMemory, haddr, hdiv, hmod, UInt8.ofNat_toNat]

/-- The table stays as long as its bytes do. -/
theorem IdtLoaded.congr {mem mem' : Ram} {base : UInt64} {idt : Idt} (h : IdtLoaded mem base idt)
    (hsame : ∀ x, (x - base).toNat < 4096 → mem' x = mem x) : IdtLoaded mem' base idt := by
  intro v i hi
  have hv : v.toNat < 256 := v.toNat_lt
  have hoffset : (base + UInt64.ofNat (16 * v.toNat + i) - base).toNat = 16 * v.toNat + i := by
    rw [Ram.toNat_add_sub_self (by omega)]
  rw [hsame _ (by omega)]
  exact h v i hi

/-- The gates of the breakpoint and of the first device interrupt, with stubs from an address that
uses all three pieces of the offset. -/
theorem boot_gates_exact_breakpoint :
    readDescriptor (tableMemory (bootIdt (fun v => 0xFFFFFFFF80001000 + UInt64.ofNat v) 7 fun _ =>
        ⟨0, 0, 0, 0, 0, 0, 0⟩)) (idtrInit 0) 3 = some ⟨⟨0xFFFFFFFF80001003, 0x28, false⟩, 0, 0⟩ ∧
      readDescriptor (tableMemory (bootIdt (fun v => 0xFFFFFFFF80001000 + UInt64.ofNat v) 7 fun _ =>
        ⟨0, 0, 0, 0, 0, 0, 0⟩)) (idtrInit 0) 32 = some ⟨⟨0xFFFFFFFF80001020, 0x28, true⟩, 0, 0⟩ :=
  ⟨(boot_gates_exact _ _ _ _ _ (tableMemory_loaded _) 3).1 (by decide),
    (boot_gates_exact _ _ _ _ _ (tableMemory_loaded _) 32).1 (by decide)⟩

end Mcsos.Arch
