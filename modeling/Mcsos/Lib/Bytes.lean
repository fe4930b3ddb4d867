import Mathlib.Data.Fintype.Pi
import Mathlib.Data.Nat.Bitwise
import Mathlib.Tactic.Ring
import Mathlib.Tactic.SplitIfs

/-!
# Fixed-size byte buffers

A buffer of `n` bytes is a function on `Fin n`.  Records inside a buffer are not decoded into
structures: a field is read and written in place, at its byte offset, the way a C program sees
a struct through a pointer into a buffer.  Everything is therefore stated about the total byte
reader `byte`, which answers `0` past the end.

* `splice dst off len src` is the only way to change a buffer: the bytes `off, …, off + len - 1`
  are replaced by those of `src`.  Copying, zero filling and storing a word are instances.
* `word src width off` reads a little-endian word.

The lemmas come in pairs: what a read inside the replaced range sees, and that a read outside it
sees the old buffer.
-/

namespace Mcsos

/-- A buffer of exactly `n` bytes. -/
def Bytes (n : ℕ) : Type := Fin n → UInt8

namespace Bytes

variable {n m : ℕ}

instance : DecidableEq (Bytes n) := inferInstanceAs (DecidableEq (Fin n → UInt8))

/-- The first `n` bytes of the memory `f`. -/
def ofFn (f : ℕ → UInt8) : Bytes n := fun i => f i

/-- The byte at offset `i`, and `0` past the end. -/
def byte (b : Bytes n) (i : ℕ) : UInt8 := if h : i < n then b ⟨i, h⟩ else 0

/-- The all-zero buffer. -/
def zero : Bytes n := ofFn fun _ => 0

/-- The bytes `off, …, off + len - 1` of `dst` replaced by the first `len` bytes of `src`. -/
def splice (dst : Bytes n) (off len : ℕ) (src : ℕ → UInt8) : Bytes n :=
  ofFn fun i => if off ≤ i ∧ i < off + len then src (i - off) else dst.byte i

/-- The byte at offset `off` replaced by `v`. -/
def setByte (b : Bytes n) (off : ℕ) (v : UInt8) : Bytes n := b.splice off 1 fun _ => v

/-- The `m` bytes of `b` from offset `off` on. -/
def slice (b : Bytes n) (off : ℕ) : Bytes m := ofFn fun i => b.byte (off + i)

@[simp] theorem byte_ofFn (f : ℕ → UInt8) {i : ℕ} (hi : i < n) :
    (ofFn f : Bytes n).byte i = f i := by
  simp [byte, ofFn, hi]

theorem byte_of_le (b : Bytes n) {i : ℕ} (hi : n ≤ i) : b.byte i = 0 := by
  simp [byte, Nat.not_lt.mpr hi]

theorem ext_byte {b c : Bytes n} (h : ∀ i < n, b.byte i = c.byte i) : b = c := by
  funext i
  have := h i i.isLt
  simpa [byte] using this

@[simp] theorem byte_zero (i : ℕ) : (zero : Bytes n).byte i = 0 := by
  unfold byte
  split <;> rfl

theorem byte_splice (dst : Bytes n) {off len i : ℕ} (src : ℕ → UInt8) (hi : i < n) :
    (dst.splice off len src).byte i =
      if off ≤ i ∧ i < off + len then src (i - off) else dst.byte i :=
  byte_ofFn _ hi

theorem byte_splice_of_outside (dst : Bytes n) {off len i : ℕ} (src : ℕ → UInt8)
    (h : i < off ∨ off + len ≤ i) : (dst.splice off len src).byte i = dst.byte i := by
  by_cases hi : i < n
  · rw [byte_splice dst src hi, if_neg (by omega)]
  · rw [byte_of_le _ (by omega), byte_of_le _ (by omega)]

theorem byte_splice_of_inside (dst : Bytes n) {off len i : ℕ} (src : ℕ → UInt8) (hi : i < n)
    (h : off ≤ i ∧ i < off + len) : (dst.splice off len src).byte i = src (i - off) := by
  rw [byte_splice dst src hi, if_pos h]

theorem byte_setByte_self (b : Bytes n) {off : ℕ} (v : UInt8) (h : off < n) :
    (b.setByte off v).byte off = v :=
  byte_splice_of_inside b _ h ⟨Nat.le_refl _, Nat.lt_succ_self _⟩

theorem byte_setByte_of_ne (b : Bytes n) {off i : ℕ} (v : UInt8) (h : i ≠ off) :
    (b.setByte off v).byte i = b.byte i :=
  byte_splice_of_outside b _ (by omega)

/-- Of two splices over the same range only the second one counts. -/
theorem splice_splice (dst : Bytes n) (off len : ℕ) (f g : ℕ → UInt8) :
    (dst.splice off len f).splice off len g = dst.splice off len g := by
  apply ext_byte
  intro i hi
  by_cases h : off ≤ i ∧ i < off + len
  · rw [byte_splice_of_inside _ _ hi h, byte_splice_of_inside _ _ hi h]
  · rw [byte_splice_of_outside _ _ (by omega), byte_splice_of_outside _ _ (by omega),
      byte_splice_of_outside _ _ (by omega)]

@[simp] theorem byte_slice (b : Bytes n) {off i : ℕ} (hi : i < m) :
    (b.slice off : Bytes m).byte i = b.byte (off + i) :=
  byte_ofFn _ hi

/-! ## Little-endian words -/

/-- The little-endian word of `width` bytes at offset `off` of the memory `src`. -/
def word (src : ℕ → UInt8) : (width off : ℕ) → ℕ
  | 0, _ => 0
  | width + 1, off => (src off).toNat + 256 * word src width (off + 1)

/-- The bytes of the number `v`, least significant first. -/
def wordBytes (v : ℕ) : ℕ → UInt8 := fun i => UInt8.ofNat (v / 256 ^ i)

/-- The 16-bit word of `b` at offset `off`. -/
def u16 (b : Bytes n) (off : ℕ) : ℕ := word b.byte 2 off

/-- The 32-bit word of `b` at offset `off`. -/
def u32 (b : Bytes n) (off : ℕ) : ℕ := word b.byte 4 off

/-- The 64-bit word of `b` at offset `off`. -/
def u64 (b : Bytes n) (off : ℕ) : ℕ := word b.byte 8 off

/-- Stores the low 16 bits of `v` at offset `off`. -/
def setU16 (b : Bytes n) (off v : ℕ) : Bytes n := b.splice off 2 (wordBytes v)

/-- Stores the low 32 bits of `v` at offset `off`. -/
def setU32 (b : Bytes n) (off v : ℕ) : Bytes n := b.splice off 4 (wordBytes v)

/-- Stores the low 64 bits of `v` at offset `off`. -/
def setU64 (b : Bytes n) (off v : ℕ) : Bytes n := b.splice off 8 (wordBytes v)

/-- A word depends only on the bytes it covers. -/
theorem word_congr {f g : ℕ → UInt8} {width off off' : ℕ}
    (h : ∀ i < width, f (off + i) = g (off' + i)) : word f width off = word g width off' := by
  induction width generalizing off off' with
  | zero => rfl
  | succ width ih =>
      have hhead : f off = g off' := h 0 (Nat.succ_pos _)
      have htail : word f width (off + 1) = word g width (off' + 1) := by
        apply ih
        intro i hi
        have := h (i + 1) (by omega)
        rwa [← Nat.add_assoc, ← Nat.add_assoc, Nat.add_right_comm, Nat.add_right_comm off'] at this
      simp only [word, hhead, htail]

theorem word_lt (f : ℕ → UInt8) (width off : ℕ) : word f width off < 256 ^ width := by
  induction width generalizing off with
  | zero => exact Nat.one_pos
  | succ width ih =>
      have hhead := (f off).toNat_lt
      have htail := ih (off + 1)
      rw [word, pow_succ']
      omega

/-- Reading back the bytes of a number gives the number, cut to the width. -/
theorem word_wordBytes (v width : ℕ) : word (wordBytes v) width 0 = v % 256 ^ width := by
  suffices h : ∀ off, word (wordBytes v) width off = v / 256 ^ off % 256 ^ width by
    simpa using h 0
  induction width with
  | zero => intro off; simp [word, Nat.mod_one]
  | succ width ih =>
      intro off
      have hhead : (wordBytes v off).toNat = v / 256 ^ off % 256 := by
        simp [wordBytes]
      have hshift : v / 256 ^ (off + 1) = v / 256 ^ off / 256 := by
        rw [pow_succ, Nat.div_div_eq_div_mul]
      have hsplit : v / 256 ^ off % 256 ^ (width + 1) =
          v / 256 ^ off % 256 + 256 * (v / 256 ^ off / 256 % 256 ^ width) := by
        rw [pow_succ', Nat.mod_mul]
      simp only [word, hhead, ih, hshift, hsplit]

/-- A word is zero exactly when all its bytes are. -/
theorem word_eq_zero_iff (f : ℕ → UInt8) (width off : ℕ) :
    word f width off = 0 ↔ ∀ i < width, f (off + i) = 0 := by
  induction width generalizing off with
  | zero => simp [word]
  | succ width ih =>
      have hhead : (f off).toNat = 0 ↔ f off = 0 := by
        rw [← UInt8.toNat_inj]; rfl
      constructor
      · intro h i hi
        simp only [word, Nat.add_eq_zero_iff, Nat.mul_eq_zero, OfNat.ofNat_ne_zero, false_or] at h
        cases i with
        | zero => exact hhead.mp h.1
        | succ i =>
            have := (ih (off + 1)).mp h.2 i (by omega)
            rwa [Nat.add_assoc, Nat.add_comm 1] at this
      · intro h
        have htail : word f width (off + 1) = 0 := by
          apply (ih (off + 1)).mpr
          intro i hi
          have := h (i + 1) (by omega)
          rwa [Nat.add_assoc, Nat.add_comm 1]
        simp only [word, htail, hhead.mpr (h 0 (Nat.succ_pos _))]

/-- The low byte of a word. -/
theorem word_mod_256 (f : ℕ → UInt8) {width off : ℕ} (hwidth : 0 < width) :
    word f width off % 256 = (f off).toNat := by
  obtain ⟨width, rfl⟩ : ∃ k, width = k + 1 := ⟨width - 1, by omega⟩
  have := (f off).toNat_lt
  simp only [word]
  omega

/-- Equal words have equal bytes. -/
theorem byte_eq_of_word_eq {f g : ℕ → UInt8} {width off off' : ℕ}
    (h : word f width off = word g width off') : ∀ i < width, f (off + i) = g (off' + i) := by
  induction width generalizing off off' with
  | zero => exact fun i hi => absurd hi (Nat.not_lt_zero i)
  | succ width ih =>
      have hf := (f off).toNat_lt
      have hg := (g off').toNat_lt
      simp only [word] at h
      have hhead : f off = g off' := UInt8.toNat_inj.mp (by omega)
      have htail := ih (show word f width (off + 1) = word g width (off' + 1) by omega)
      intro i hi
      cases i with
      | zero => exact hhead
      | succ i =>
          have := htail i (by omega)
          rwa [Nat.add_assoc, Nat.add_comm 1, Nat.add_assoc, Nat.add_comm 1] at this

/-! ## Reading a spliced buffer -/

/-- A word outside the spliced range is the old one. -/
theorem word_splice_of_disjoint (b : Bytes n) {off len o width : ℕ} (src : ℕ → UInt8)
    (h : o + width ≤ off ∨ off + len ≤ o) :
    word (b.splice off len src).byte width o = word b.byte width o :=
  word_congr fun i hi => byte_splice_of_outside b src (by omega)

theorem word_setByte_of_outside (b : Bytes n) {off o width : ℕ} (v : UInt8)
    (h : off < o ∨ o + width ≤ off) : word (b.setByte off v).byte width o = word b.byte width o :=
  word_splice_of_disjoint b _ (by omega)

/-- A word changes with any of its bytes. -/
theorem word_setByte_ne (b : Bytes n) {off o width : ℕ} {v : UInt8} (hoff : off < n)
    (hlow : o ≤ off) (hhigh : off < o + width) (hv : v ≠ b.byte off) :
    word (b.setByte off v).byte width o ≠ word b.byte width o := by
  intro heq
  have hbyte := byte_eq_of_word_eq heq (off - o) (by omega)
  rw [Nat.add_sub_of_le hlow, byte_setByte_self b v hoff] at hbyte
  exact hv hbyte

/-- A word inside the spliced range is a word of the source. -/
theorem word_splice_of_inside (b : Bytes n) {off len o width : ℕ} (src : ℕ → UInt8)
    (hlow : off ≤ o) (hhigh : o + width ≤ off + len) (hbound : off + len ≤ n) :
    word (b.splice off len src).byte width o = word src width (o - off) :=
  word_congr fun i hi => by
    rw [byte_splice_of_inside b src (by omega) (by omega)]
    congr 1
    omega

/-- A stored word is read back, cut to its width. -/
theorem word_splice_wordBytes (b : Bytes n) {off width : ℕ} (v : ℕ) (h : off + width ≤ n) :
    word (b.splice off width (wordBytes v)).byte width off = v % 256 ^ width := by
  rw [word_splice_of_inside b _ (Nat.le_refl _) (Nat.le_refl _) h, Nat.sub_self, word_wordBytes]

/-- A word of a slice is a word of the whole buffer. -/
theorem word_slice (b : Bytes n) {off o width : ℕ} (h : o + width ≤ m) :
    word (b.slice off : Bytes m).byte width o = word b.byte width (off + o) :=
  word_congr fun i hi => by rw [byte_slice b (by omega), Nat.add_assoc]

@[simp] theorem slice_zero {m : ℕ} (off : ℕ) : ((zero : Bytes n).slice off : Bytes m) = zero := by
  apply ext_byte
  intro i hi
  rw [byte_slice _ hi, byte_zero, byte_zero]

theorem word_zero (width off : ℕ) : word (zero : Bytes n).byte width off = 0 :=
  (word_eq_zero_iff _ _ _).mpr fun i _ => byte_zero (off + i)

@[simp] theorem u32_zero (off : ℕ) : (zero : Bytes n).u32 off = 0 := word_zero 4 off

@[simp] theorem u64_zero (off : ℕ) : (zero : Bytes n).u64 off = 0 := word_zero 8 off

theorem u32_setU32 (b : Bytes n) {off : ℕ} (v : ℕ) (h : off + 4 ≤ n) :
    (b.setU32 off v).u32 off = v % 2 ^ 32 :=
  word_splice_wordBytes b v h

end Bytes

end Mcsos
