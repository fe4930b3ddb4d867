import Mcsos.Block.Ram
import Mcsos.Lib.Overlay

/-!
# Requests of several blocks

A request for `count` blocks from `lba` is checked twice: `mcsos_blk_validate_range` counts in
blocks and subtracts, the RAM driver multiplies and counts in bytes with 64 bits.  The two agree:
what fits in the device has its bytes at `lba * bs` without wrapping (`Backed.span`), and what does
not fit never reaches the driver.

A write changes the blocks it covers and nothing else (`blockOf_write`), so it is an overlay of the
store of blocks, and after any sequence of writes a read finds in every block what the last write
that fits and covers it has put there (`ramblk_requests_exact`).
-/

namespace Mcsos.Block

open Function

/-- The parameters of `mcsos_blk_write`; a read has no use for the contents of its buffer. -/
structure Request where
  lba : UInt64
  count : UInt32
  buffer : ℕ → UInt8

namespace Request

variable (r : Request)

/-- The request is for some blocks, all of them on the device. -/
def Fits (dev : Device) : Prop := 1 ≤ r.count.toNat ∧ r.lba.toNat + r.count.toNat ≤ dev.blockCount

instance (dev : Device) : Decidable (r.Fits dev) := inferInstanceAs (Decidable (_ ∧ _))

/-- The error for a request that does not fit. -/
def refusal : Err := if r.count.toNat = 0 then .einval else .erange

/-- The block is one of those of the request. -/
def Covers (b : ℕ) : Prop := r.lba.toNat ≤ b ∧ b < r.lba.toNat + r.count.toNat

instance (b : ℕ) : Decidable (r.Covers b) := inferInstanceAs (Decidable (_ ∧ _))

/-- The part of the buffer for the block `b`. -/
def part (bs b : ℕ) : Bytes bs := Bytes.ofFn fun j => r.buffer ((b - r.lba.toNat) * bs + j)

end Request

/-! ## The two checks -/

theorem Request.fits_iff (r : Request) (dev : Device) :
    r.Fits dev ↔ 1 ≤ r.count.toNat ∧ r.lba.toNat + r.count.toNat ≤ dev.blockCount := Iff.rfl

theorem validateRange_eq (dev : Device) (r : Request) :
    validateRange dev r.lba.toNat r.count.toNat =
      if r.Fits dev then .ok () else .error r.refusal := by
  have hfits := r.fits_iff dev
  unfold validateRange Request.refusal
  by_cases hzero : r.count.toNat = 0
  · rw [if_pos hzero, if_neg (by rw [hfits]; omega), if_pos hzero]
  rw [if_neg hzero, if_neg hzero]
  by_cases hlba : dev.blockCount ≤ r.lba.toNat
  · rw [if_pos hlba, if_neg (by rw [hfits]; omega)]
  rw [if_neg hlba]
  by_cases hcount : dev.blockCount - r.lba.toNat < r.count.toNat
  · rw [if_pos hcount, if_neg (by rw [hfits]; omega)]
  · rw [if_neg hcount, if_pos (by rw [hfits]; omega)]

variable {δ : Type} {devs : δ → Device} {mem : δ → Ramblk} {p : δ} {bs : ℕ} {r : Request}

theorem blkRead_of_not_fits (hfits : ¬ r.Fits (devs p)) :
    blkRead devs mem p r.lba.toNat r.count.toNat = .error r.refusal := by
  unfold blkRead
  rw [validateRange_eq, if_neg hfits]
  rfl

theorem blkRead_of_fits (h : Backed (devs p) bs (mem p)) (hfits : r.Fits (devs p)) :
    blkRead devs mem p r.lba.toNat r.count.toNat =
      .ok ((List.range (r.count.toNat * bs)).map fun i => (mem p).storage
        (r.lba.toNat * bs + i)) := by
  unfold blkRead ramblkRead
  rw [validateRange_eq, if_pos hfits, h.span hfits.2]
  rfl

variable [DecidableEq δ]

theorem blkWrite_of_not_fits (hfits : ¬ r.Fits (devs p)) :
    blkWrite devs mem p r.lba.toNat r.count.toNat r.buffer = .error r.refusal := by
  unfold blkWrite
  rw [validateRange_eq, if_neg hfits]
  rfl

/-- The array after a write of `length` bytes from `first`. -/
def patched (ram : Ramblk) (first length : ℕ) (buffer : ℕ → UInt8) : Ramblk :=
  { ram with
    storage := fun i => if first ≤ i ∧ i < first + length then buffer (i - first)
      else ram.storage i }

theorem blkWrite_of_fits (h : Backed (devs p) bs (mem p)) (hfits : r.Fits (devs p)) :
    blkWrite devs mem p r.lba.toNat r.count.toNat r.buffer =
      .ok (update mem p (patched (mem p) (r.lba.toNat * bs) (r.count.toNat * bs) r.buffer)) := by
  unfold blkWrite ramblkWrite
  rw [validateRange_eq, if_pos hfits, h.span hfits.2]
  rfl

/-! ## One write -/

/-- The arrays after a write of `mcsos_blk_write`; a refused one leaves them alone. -/
def write (devs : δ → Device) (mem : δ → Ramblk) (w : δ × Request) : δ → Ramblk :=
  match blkWrite devs mem w.1 w.2.lba.toNat w.2.count.toNat w.2.buffer with
  | .ok mem' => mem'
  | .error _ => mem

/-- What the write `w` puts into the block `b` of the device `p`. -/
def content (devs : δ → Device) (p : δ) (bs : ℕ) (w : δ × Request) (b : ℕ) : Option (Bytes bs) :=
  if w.1 = p ∧ w.2.Fits (devs p) ∧ w.2.Covers b then some (w.2.part bs b) else none

theorem content_of_refused {w : δ × Request} (hno : ¬ (w.1 = p ∧ w.2.Fits (devs p))) (b : ℕ) :
    content devs p bs w b = none :=
  if_neg fun hw => hno ⟨hw.1, hw.2.1⟩

theorem write_of_not_fits {w : δ × Request} (hfits : ¬ w.2.Fits (devs w.1)) :
    write devs mem w = mem := by
  unfold write
  rw [blkWrite_of_not_fits hfits]

theorem write_of_fits {w : δ × Request} (h : Backed (devs w.1) bs (mem w.1))
    (hfits : w.2.Fits (devs w.1)) :
    write devs mem w = update mem w.1
      (patched (mem w.1) (w.2.lba.toNat * bs) (w.2.count.toNat * bs) w.2.buffer) := by
  unfold write
  rw [blkWrite_of_fits h hfits]

/-- A write to another device, whatever that is, has no effect here. -/
theorem write_other {w : δ × Request} (hdev : w.1 ≠ p) : write devs mem w p = mem p := by
  unfold write blkWrite
  cases validateRange (devs w.1) w.2.lba.toNat w.2.count.toNat with
  | error e => rfl
  | ok _ =>
      cases ramblkWrite (devs w.1) (mem w.1) w.2.lba.toNat w.2.count.toNat w.2.buffer with
      | error e => rfl
      | ok ram => exact update_of_ne (Ne.symm hdev) ram mem

/-- A write leaves the size of the array. -/
theorem Backed.write (h : Backed (devs p) bs (mem p)) (w : δ × Request) :
    Backed (devs p) bs (write devs mem w p) := by
  by_cases hdev : w.1 = p
  · subst hdev
    by_cases hfits : w.2.Fits (devs w.1)
    · rw [write_of_fits h hfits, update_self]
      exact ⟨h.blockSize, h.size, h.small⟩
    · rw [write_of_not_fits hfits]
      exact h
  · rw [write_other hdev]
    exact h

/-- A byte of a block is in the range of a request when its block is. -/
theorem span_iff {lba count b j : ℕ} (hj : j < bs) :
    (lba * bs ≤ b * bs + j ∧ b * bs + j < lba * bs + count * bs) ↔ lba ≤ b ∧ b < lba + count := by
  have hdiv : (b * bs + j) / bs = b := by
    rw [Nat.mul_comm, Nat.mul_add_div (by omega), Nat.div_eq_of_lt hj, Nat.add_zero]
  have hlow : lba * bs ≤ b * bs + j ↔ lba ≤ b := by
    rw [← Nat.le_div_iff_mul_le (by omega), hdiv]
  have hhigh : b * bs + j < lba * bs + count * bs ↔ b < lba + count := by
    rw [← Nat.add_mul, ← Nat.div_lt_iff_lt_mul (by omega), hdiv]
  rw [hlow, hhigh]

/-- The blocks of the device `p`. -/
def blockOf (bs : ℕ) (mem : δ → Ramblk) (p : δ) : ℕ → Bytes bs := fun b => ramBlocks bs mem (p, b)

/-- A write is an overlay of the blocks. -/
theorem blockOf_write (h : Backed (devs p) bs (mem p)) (w : δ × Request) :
    blockOf bs (write devs mem w) p = overlay (content devs p bs) (blockOf bs mem p) w := by
  by_cases hdev : w.1 = p
  · subst hdev
    by_cases hfits : w.2.Fits (devs w.1)
    · funext b
      apply Bytes.ext_byte
      intro j hj
      rw [write_of_fits h hfits, overlay, blockOf, ramBlocks, Bytes.byte_ofFn _ hj, update_self]
      dsimp only [patched]
      by_cases hcover : w.2.Covers b
      · have hsub : b * bs + j - w.2.lba.toNat * bs = (b - w.2.lba.toNat) * bs + j := by
          rw [Nat.sub_mul, Nat.sub_add_comm (Nat.mul_le_mul_right bs hcover.1)]
        rw [if_pos ((span_iff hj).mpr hcover), content, if_pos ⟨rfl, hfits, hcover⟩,
          Option.getD_some, Request.part, Bytes.byte_ofFn _ hj, hsub]
      · rw [if_neg (mt (span_iff hj).mp hcover), content, if_neg fun hw => hcover hw.2.2,
          Option.getD_none, blockOf, ramBlocks, Bytes.byte_ofFn _ hj]
    · rw [write_of_not_fits hfits,
        overlay_of_none fun b => content_of_refused (fun hw => hfits hw.2) b]
  · rw [overlay_of_none fun b => content_of_refused (fun hw => hdev hw.1) b]
    funext b
    unfold blockOf ramBlocks
    rw [write_other hdev]

/-! ## Sequences of writes -/

/-- The arrays after the writes, one after the other. -/
def writeAll (devs : δ → Device) (mem : δ → Ramblk) (ws : List (δ × Request)) : δ → Ramblk :=
  ws.foldl (write devs) mem

theorem Backed.writeAll (h : Backed (devs p) bs (mem p)) (ws : List (δ × Request)) :
    Backed (devs p) bs (writeAll devs mem ws p) := by
  induction ws generalizing mem with
  | nil => exact h
  | cons w ws ih => exact ih (h.write w)

theorem blockOf_writeAll (h : Backed (devs p) bs (mem p)) (ws : List (δ × Request)) :
    blockOf bs (writeAll devs mem ws) p = ws.foldl (overlay (content devs p bs))
      (blockOf bs mem p) := by
  induction ws generalizing mem with
  | nil => rfl
  | cons w ws ih => rw [List.foldl_cons, ← blockOf_write h w, ← ih (h.write w)]; rfl

/-- A block holds what the last write that covers it has put there. -/
theorem blockOf_writeAll_apply (h : Backed (devs p) bs (mem p)) (ws : List (δ × Request)) (b : ℕ) :
    blockOf bs (writeAll devs mem ws) p b =
      (ws.reverse.findSome? (content devs p bs · b)).getD (blockOf bs mem p b) := by
  rw [blockOf_writeAll h, foldl_overlay_apply]

omit [DecidableEq δ] in
/-- The bytes a read delivers, block by block. -/
theorem getElem?_blkRead {lba count b j : ℕ} (hb : lba ≤ b ∧ b < lba + count) (hj : j < bs) :
    ((List.range (count * bs)).map fun i => (mem p).storage (lba * bs + i))[(b - lba) * bs + j]? =
      some ((blockOf bs mem p b).byte j) := by
  have hoffset : lba * bs + ((b - lba) * bs + j) = b * bs + j := by
    rw [← Nat.add_assoc, ← Nat.add_mul, Nat.add_sub_cancel' hb.1]
  have hlt : (b - lba) * bs + j < count * bs := by
    have hspan := (span_iff hj).mpr hb
    omega
  rw [List.getElem?_map, List.getElem?_range hlt, Option.map_some, hoffset, blockOf, ramBlocks,
    Bytes.byte_ofFn _ hj]

/-- Requests to a device from `mcsos_ramblk_init`, after any writes to it and to other devices.
What fits is executed: its bytes are inside the array without wrapping, a read delivers every block
as the last write that covers it left it, a write changes its bytes and nothing else.  What does not
fit is refused. -/
theorem ramblk_requests_exact {devs : δ → Device} {mem : δ → Ramblk} {p : δ} {storage : ℕ → UInt8}
    {size : UInt64} {bs : UInt32}
    (hinit : ramblkInit storage size.toNat bs.toNat = .ok (devs p, mem p))
    (ws : List (δ × Request)) (r : Request) :
    let now := writeAll devs mem ws
    (r.Fits (devs p) →
      ramblkSpan (devs p) (now p) r.lba.toNat r.count.toNat =
          .ok (r.lba.toNat * bs.toNat, r.count.toNat * bs.toNat) ∧
        (r.lba.toNat + r.count.toNat) * bs.toNat ≤ size.toNat ∧
        (∃ bytes, blkRead devs now p r.lba.toNat r.count.toNat = .ok bytes ∧
          bytes.length = r.count.toNat * bs.toNat ∧
          ∀ b, r.Covers b → ∀ j, j < bs.toNat → bytes[(b - r.lba.toNat) * bs.toNat + j]? =
            some (((ws.reverse.findSome? (content devs p bs.toNat · b)).getD
              (Bytes.ofFn fun i => storage (b * bs.toNat + i))).byte j)) ∧
        ∃ next, blkWrite devs now p r.lba.toNat r.count.toNat r.buffer = .ok next ∧
          (∀ q, q ≠ p → next q = now q) ∧ (next p).storageSize = (now p).storageSize ∧
          ∀ i, (next p).storage i =
            if r.lba.toNat * bs.toNat ≤ i ∧ i < (r.lba.toNat + r.count.toNat) * bs.toNat
            then r.buffer (i - r.lba.toNat * bs.toNat) else (now p).storage i) ∧
    (¬ r.Fits (devs p) →
      blkRead devs now p r.lba.toNat r.count.toNat = .error r.refusal ∧
      blkWrite devs now p r.lba.toNat r.count.toNat r.buffer = .error r.refusal) := by
  intro now
  have hback : Backed (devs p) bs.toNat (mem p) := backed_init size.toNat_lt hinit
  have hnow : Backed (devs p) bs.toNat (now p) := hback.writeAll ws
  obtain ⟨-, -, hmem⟩ := ramblkInit_ok hinit
  refine ⟨fun hfits => ⟨hnow.span hfits.2, ?_, ?_, ?_⟩, fun hfits => ⟨?_, ?_⟩⟩
  · have hend := hback.end_le hfits.2
    rw [hmem] at hend
    exact hend
  · refine ⟨_, blkRead_of_fits hnow hfits, by rw [List.length_map, List.length_range], ?_⟩
    intro b hb j hj
    rw [getElem?_blkRead hb hj, blockOf_writeAll_apply hback, blockOf, ramBlocks, hmem]
  · refine ⟨_, blkWrite_of_fits hnow hfits, fun q hq => update_of_ne hq _ _, ?_, fun i => ?_⟩
    · rw [update_self]
      rfl
    · rw [update_self, Nat.add_mul]
      rfl
  · exact blkRead_of_not_fits hfits
  · exact blkWrite_of_not_fits hfits

/-- Two blocks written as one, then the second of them again: a read of both finds the new second
block. -/
theorem ramblk_requests_exact_overlapping :
    let devs : Unit → Device := fun _ => ⟨512, 2⟩
    let now :=
      writeAll devs (fun _ => ⟨fun _ => 0, 1024⟩)
      [((), ⟨0, 2, fun _ => 1⟩), ((), ⟨1, 1, fun _ => 2⟩)]
    ∃ bytes, blkRead devs now () 0 2 = .ok bytes ∧ bytes[511]? = some 1 ∧ bytes[512]? = some 2 := by
  intro devs now
  have hinit : ramblkInit (fun _ => 0) (1024 : UInt64).toNat (512 : UInt32).toNat =
      .ok (devs (), ⟨fun _ => 0, 1024⟩) := rfl
  obtain ⟨-, -, ⟨bytes, hread, -, hbytes⟩, -⟩ :=
    (@ramblk_requests_exact Unit _ devs (fun _ => ⟨fun _ => 0, 1024⟩) () (fun _ => 0) 1024 512 hinit
      [((), ⟨0, 2, fun _ => 1⟩), ((), ⟨1, 1, fun _ => 2⟩)] ⟨0, 2, fun _ => 0⟩).1 (by decide)
  refine ⟨bytes, hread, ?_, ?_⟩
  · exact (hbytes 0 (by decide) 511 (by decide)).trans (by decide)
  · exact (hbytes 1 (by decide) 0 (by decide)).trans (by decide)

end Mcsos.Block
