import Mcsos.Block.Cache
import Mcsos.Lib.Driver

/-!
# RAM devices as stores of blocks

A device made by `mcsos_ramblk_init` answers every request for a block in its range, and its array
of bytes is the blocks one after the other: the offsets do not wrap, because the whole array has a
size of 64 bits.  So programs of the block layer, which check the range first, run on RAM devices as
on a healthy store of blocks (`ramDriver_implements`).
-/

namespace Mcsos.Block

open Prog Function

variable {δ : Type} {bs : ℕ}

/-- All devices are RAM devices with blocks of `bs` bytes, and `mem` are their arrays. -/
structure RamOk (devs : δ → Device) (bs : ℕ) (mem : δ → Ramblk) : Prop where
  blockSize : ∀ p, (devs p).blockSize = bs
  size : ∀ p, (mem p).storageSize = (devs p).blockCount * bs
  small : ∀ p, (mem p).storageSize < 2 ^ 64

/-- The blocks in the arrays. -/
def ramBlocks (bs : ℕ) (mem : δ → Ramblk) : δ × ℕ → Bytes bs := fun a =>
  Bytes.ofFn fun i => (mem a.1).storage (a.2 * bs + i)

/-- The address is in the range of its device. -/
def InRange (devs : δ → Device) (a : δ × ℕ) : Prop := a.2 < (devs a.1).blockCount

variable {devs : δ → Device} {mem : δ → Ramblk}

/-- The array of a RAM device is its blocks. -/
structure Backed (dev : Device) (bs : ℕ) (ram : Ramblk) : Prop where
  blockSize : dev.blockSize = bs
  size : ram.storageSize = dev.blockCount * bs
  small : ram.storageSize < 2 ^ 64

theorem RamOk.backed (h : RamOk devs bs mem) (p : δ) : Backed (devs p) bs (mem p) :=
  ⟨h.blockSize p, h.size p, h.small p⟩

/-- What `mcsos_ramblk_init` accepts, and what it makes. -/
theorem ramblkInit_ok {storage : ℕ → UInt8} {size : ℕ} {dev : Device} {ram : Ramblk}
    (hinit : ramblkInit storage size bs = .ok (dev, ram)) :
    size % bs = 0 ∧ dev = ⟨bs, size / bs⟩ ∧ ram = ⟨storage, size⟩ := by
  unfold ramblkInit at hinit
  split at hinit
  · cases hinit
  split at hinit
  · cases hinit
  rename_i hmultiple
  obtain ⟨hdev, hram⟩ := Prod.mk.inj (Except.ok.inj hinit)
  have hmod : size % bs = 0 := by
    by_contra hne
    exact hmultiple (Or.inr hne)
  exact ⟨hmod, hdev.symm, hram.symm⟩

theorem backed_init {storage : ℕ → UInt8} {size : ℕ} {dev : Device} {ram : Ramblk}
    (hsize : size < 2 ^ 64) (hinit : ramblkInit storage size bs = .ok (dev, ram)) :
    Backed dev bs ram := by
  obtain ⟨hmod, rfl, rfl⟩ := ramblkInit_ok hinit
  exact ⟨rfl, (Nat.div_mul_cancel (Nat.dvd_of_mod_eq_zero hmod)).symm, hsize⟩

theorem ramOk_init {storage : δ → ℕ → UInt8} {size : δ → ℕ} (hsize : ∀ p, size p < 2 ^ 64)
    (hinit : ∀ p, ramblkInit (storage p) (size p) bs = .ok (devs p, mem p)) : RamOk devs bs mem :=
  ⟨fun p => (backed_init (hsize p) (hinit p)).blockSize, fun p =>
    (backed_init (hsize p) (hinit p)).size, fun p => (backed_init (hsize p) (hinit p)).small⟩

/-- Blocks in range end inside the array. -/
theorem Backed.end_le {dev : Device} {ram : Ramblk} (h : Backed dev bs ram) {lba count : ℕ}
    (hfits : lba + count ≤ dev.blockCount) : (lba + count) * bs ≤ ram.storageSize := by
  rw [h.size]
  exact Nat.mul_le_mul_right bs hfits

/-- Blocks in range have their bytes where they should: nothing wraps. -/
theorem Backed.span {dev : Device} {ram : Ramblk} (h : Backed dev bs ram) {lba count : ℕ}
    (hfits : lba + count ≤ dev.blockCount) :
    ramblkSpan dev ram lba count = .ok (lba * bs, count * bs) := by
  have hend := h.end_le hfits
  rw [Nat.add_mul] at hend
  have hsmall := h.small
  have hoffset : lba * bs % 2 ^ 64 = lba * bs := Nat.mod_eq_of_lt (by omega)
  have hcount : count * bs % 2 ^ 64 = count * bs := Nat.mod_eq_of_lt (by omega)
  unfold ramblkSpan
  rw [h.blockSize, hoffset, hcount]
  dsimp only
  rw [if_neg (by omega)]

theorem ramblkSpan_of_inRange (h : RamOk devs bs mem) {p : δ} {lba : ℕ}
    (hlba : lba < (devs p).blockCount) :
    ramblkSpan (devs p) (mem p) lba 1 = .ok (lba * bs, bs) := by
  rw [(h.backed p).span hlba, Nat.one_mul]

theorem ramblkRead_of_inRange (h : RamOk devs bs mem) {p : δ} {lba : ℕ}
    (hlba : lba < (devs p).blockCount) :
    ramblkRead (devs p) (mem p) lba 1 =
      .ok ((List.range bs).map (ramBlocks bs mem (p, lba)).byte) := by
  unfold ramblkRead
  rw [ramblkSpan_of_inRange h hlba]
  refine congrArg Except.ok (List.map_congr_left fun i hi => ?_)
  rw [ramBlocks, Bytes.byte_ofFn _ (List.mem_range.mp hi)]

/-- A cached request is checked like a direct one. -/
theorem blkRead_one (h : RamOk devs bs mem) (p : δ) (lba : ℕ) :
    blkRead devs mem p lba 1 = if lba < (devs p).blockCount
      then .ok ((List.range bs).map (ramBlocks bs mem (p, lba)).byte) else .error .erange := by
  unfold blkRead
  rw [validateRange_one]
  by_cases hlba : lba < (devs p).blockCount
  · rw [if_pos hlba, if_pos hlba, ← ramblkRead_of_inRange h hlba]
    rfl
  · rw [if_neg hlba, if_neg hlba]
    rfl

theorem ramblkWrite_of_inRange (h : RamOk devs bs mem) {p : δ} {lba : ℕ}
    (hlba : lba < (devs p).blockCount) (buffer : ℕ → UInt8) :
    ramblkWrite (devs p) (mem p) lba 1 buffer = .ok { mem p with
      storage := fun i => if lba * bs ≤ i ∧ i < lba * bs + bs then buffer (i - lba * bs)
        else (mem p).storage i } := by
  unfold ramblkWrite
  rw [ramblkSpan_of_inRange h hlba]
  rfl

variable [DecidableEq δ]

theorem blkWrite_one_erange (h : RamOk devs bs mem) (p : δ) (lba : ℕ) (buffer : ℕ → UInt8) :
    blkWrite devs mem p lba 1 buffer = .error .erange ↔ ¬ lba < (devs p).blockCount := by
  unfold blkWrite
  rw [validateRange_one]
  by_cases hlba : lba < (devs p).blockCount
  · rw [if_pos hlba, ramblkWrite_of_inRange h hlba]
    exact ⟨fun heq => (by cases heq), fun hn => absurd hlba hn⟩
  · rw [if_neg hlba]
    exact ⟨fun _ => hlba, fun _ => rfl⟩

/-! ## The driver -/

/-- The operations `g_ramblk_ops` for requests of one block. -/
def ramDriver (devs : δ → Device) : Driver (δ × ℕ) (Bytes bs) Err (δ → Ramblk) where
  read mem a :=
    match ramblkRead (devs a.1) (mem a.1) a.2 1 with
    | .ok bytes => .ok (Bytes.ofFn fun i => bytes.getD i 0)
    | .error st => .error st
  write mem a data :=
    match ramblkWrite (devs a.1) (mem a.1) a.2 1 data.byte with
    | .ok ram => (.ok (), update mem a.1 ram)
    | .error st => (.error st, mem)
  flush mem := (.ok (), mem)

/-- Writing one block leaves the others alone. -/
theorem ramBlocks_update (mem : δ → Ramblk) (a : δ × ℕ) (data : Bytes bs) :
    ramBlocks bs (update mem a.1 { mem a.1 with
      storage := fun i => if a.2 * bs ≤ i ∧ i < a.2 * bs + bs then data.byte (i - a.2 * bs)
        else (mem a.1).storage i }) = update (ramBlocks bs mem) a data := by
  funext b
  apply Bytes.ext_byte
  intro i hi
  rw [ramBlocks, Bytes.byte_ofFn _ hi]
  by_cases hb : b = a
  · subst hb
    rw [update_self, update_self]
    dsimp only
    rw [if_pos (by omega), Nat.add_sub_cancel_left]
  rw [update_of_ne hb]
  unfold ramBlocks
  rw [Bytes.byte_ofFn _ hi]
  by_cases hdev : b.1 = a.1
  · -- another block of the same device: the two ranges of bytes are apart
    have hlba : b.2 ≠ a.2 := fun heq => hb (Prod.ext hdev heq)
    have hapart : ¬ (a.2 * bs ≤ b.2 * bs + i ∧ b.2 * bs + i < a.2 * bs + bs) := by
      rcases Nat.lt_or_gt_of_ne hlba with hlt | hlt
      · have := Nat.mul_le_mul_right bs (Nat.succ_le_of_lt hlt)
        rw [Nat.succ_mul] at this
        omega
      · have := Nat.mul_le_mul_right bs (Nat.succ_le_of_lt hlt)
        rw [Nat.succ_mul] at this
        omega
    rw [hdev, update_self]
    dsimp only
    rw [if_neg hapart]
  · rw [update_of_ne hdev]

/-- The bytes in an array do not matter for its size. -/
theorem RamOk.setStorage (h : RamOk devs bs mem) (p : δ) (storage : ℕ → UInt8) :
    RamOk devs bs (update mem p { mem p with storage := storage }) := by
  have hsame : ∀ q, (update mem p { mem p with storage := storage } q).storageSize =
      (mem q).storageSize := by
    intro q
    by_cases hq : q = p
    · rw [hq, update_self]
    · rw [update_of_ne hq]
  refine ⟨h.blockSize, fun q => ?_, fun q => ?_⟩
  · rw [hsame]
    exact h.size q
  · rw [hsame]
    exact h.small q

theorem ramDriver_implements (devs : δ → Device) :
    (ramDriver devs : Driver (δ × ℕ) (Bytes bs) Err _).Implements (InRange devs) (RamOk devs bs)
      (ramBlocks bs) := by
  constructor
  · intro mem a h ha
    have hread := ramblkRead_of_inRange h ha
    dsimp only [ramDriver]
    rw [hread]
    refine congrArg Except.ok (Bytes.ext_byte fun i hi => ?_)
    rw [Bytes.byte_ofFn _ hi, List.getD_eq_getElem _ _ (by simpa using hi)]
    simp
  · intro mem a data h ha
    have hwrite := ramblkWrite_of_inRange h ha data.byte
    dsimp only [ramDriver]
    rw [hwrite]
    exact ⟨rfl, h.setStorage a.1 _, ramBlocks_update mem a data⟩
  · exact fun mem _ => rfl

/-! ## Programs of the block layer stay in range -/

section Within

omit [DecidableEq δ]

theorem within_blkReadOne (p : δ) (lba : ℕ) :
    Within (InRange devs) (blkReadOne devs p lba : BlkM δ bs _) := by
  unfold blkReadOne
  rw [validateRange_one]
  split_ifs with hlba
  · exact ⟨hlba, within_ofExcept⟩
  · trivial

theorem within_blkWriteOne (dev : Option δ) (lba : ℕ) (data : Bytes bs) :
    Within (InRange devs) (blkWriteOne devs dev lba data) := by
  unfold blkWriteOne
  cases dev with
  | none => trivial
  | some p =>
      dsimp only
      rw [validateRange_one]
      split_ifs with hlba
      · exact ⟨hlba, within_ofExcept⟩
      · trivial

theorem within_flushEntry (e : Entry δ bs) : Within (InRange devs) (flushEntry devs e) := by
  unfold flushEntry
  split_ifs
  · trivial
  · exact (within_blkWriteOne _ _ _).attempt.bind fun st => by cases st <;> trivial

theorem within_selectVictim (c : Cache δ bs) : Within (InRange devs) (selectVictim devs c) := by
  unfold selectVictim
  split_ifs
  · trivial
  · dsimp only
    split
    · trivial
    · refine (within_flushEntry _).bind fun x => ?_
      obtain ⟨st, e⟩ := x
      cases st <;> trivial

theorem within_flushFrom :
    ∀ (r i : ℕ) (c : Cache δ bs), Within (InRange devs) (flushFrom devs r i c) := by
  intro r
  induction r with
  | zero => exact fun i c => trivial
  | succ r ih =>
      intro i c
      refine (within_flushEntry _).bind fun x => ?_
      obtain ⟨st, e⟩ := x
      cases st with
      | error st => trivial
      | ok _ => exact ih _ _

end Within

theorem within_bcacheRead (c : Cache δ bs) (p : δ) (lba : ℕ) :
    Within (InRange devs) (bcacheRead devs c p lba) := by
  unfold bcacheRead
  split_ifs
  · trivial
  · split
    · trivial
    · refine (within_selectVictim _).bind fun x => ?_
      obtain ⟨st, c'⟩ := x
      cases st with
      | error st => trivial
      | ok i => exact (within_blkReadOne _ _).attempt.bind fun st => by cases st <;> trivial

theorem within_bcacheWrite (c : Cache δ bs) (p : δ) (lba : ℕ) (buffer : Bytes bs) :
    Within (InRange devs) (bcacheWrite devs c p lba buffer) := by
  unfold bcacheWrite
  split_ifs
  · trivial
  · split
    · trivial
    · refine (within_selectVictim _).bind fun x => ?_
      obtain ⟨st, c'⟩ := x
      cases st <;> trivial

end Mcsos.Block
