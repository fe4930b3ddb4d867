import Mcsos.Lib.Bytes

/-!
# NUL-terminated strings

A C string is the list of its bytes before the terminator; carrying `nonzero` as a field keeps a
list with an inner NUL from being one.  Reading past the end of the list sees the terminator.

`scanLen` is the bounded length scan that C code writes for itself when it does not trust the
terminator to be there: it counts bytes up to the first NUL, but at most `bound` of them.
-/

namespace Mcsos

/-- A NUL-terminated string. -/
structure CStr where
  bytes : List UInt8
  nonzero : 0 ∉ bytes

namespace CStr

/-- The characters of the string, followed by its terminator. -/
def char (s : CStr) (i : ℕ) : UInt8 := s.bytes.getD i 0

/-- The length of the string, without the terminator. -/
def length (s : CStr) : ℕ := s.bytes.length

@[ext] theorem ext {s t : CStr} (h : s.bytes = t.bytes) : s = t := by
  cases s; cases t; cases h; rfl

instance : DecidableEq CStr := fun _ _ => decidable_of_iff _ ⟨CStr.ext, congrArg _⟩

theorem char_of_le (s : CStr) {i : ℕ} (h : s.length ≤ i) : s.char i = 0 := by
  rw [char, List.getD_eq_default]
  exact h

theorem char_ne_zero (s : CStr) {i : ℕ} (h : i < s.length) : s.char i ≠ 0 := by
  rw [char, List.getD_eq_getElem _ _ h]
  exact fun hzero => s.nonzero (hzero ▸ List.getElem_mem h)

theorem char_eq_zero_iff (s : CStr) {i : ℕ} : s.char i = 0 ↔ s.length ≤ i := by
  constructor
  · intro h
    exact not_lt.mp fun hlt => s.char_ne_zero hlt h
  · exact s.char_of_le

/-- Two strings of the same length with the same characters are equal. -/
theorem ext_char {s t : CStr} (hlen : s.length = t.length)
    (h : ∀ i < s.length, s.char i = t.char i) : s = t := by
  apply CStr.ext
  apply List.ext_getElem hlen
  intro i hs ht
  have := h i hs
  rwa [char, char, List.getD_eq_getElem _ _ hs, List.getD_eq_getElem _ _ ht] at this

end CStr

/-- The number of bytes of `s` before the first NUL, and `bound` if there is none before. -/
def scanLen (s : ℕ → UInt8) : (bound : ℕ) → ℕ
  | 0 => 0
  | bound + 1 => if s 0 = 0 then 0 else scanLen (fun i => s (i + 1)) bound + 1

theorem scanLen_le (s : ℕ → UInt8) (bound : ℕ) : scanLen s bound ≤ bound := by
  induction bound generalizing s with
  | zero => exact Nat.le_refl _
  | succ bound ih =>
      unfold scanLen
      split
      · exact Nat.zero_le _
      · exact Nat.succ_le_succ (ih _)

/-- The scan stops at `n` exactly when `n` is the bound or the first NUL. -/
theorem scanLen_eq_iff (s : ℕ → UInt8) {bound n : ℕ} (hn : n ≤ bound) :
    scanLen s bound = n ↔ (∀ i < n, s i ≠ 0) ∧ (n < bound → s n = 0) := by
  induction bound generalizing s n with
  | zero =>
      obtain rfl : n = 0 := by omega
      simp [scanLen]
  | succ bound ih =>
      by_cases hzero : s 0 = 0
      · constructor
        · intro h
          obtain rfl : n = 0 := by simpa [scanLen, hzero] using h.symm
          exact ⟨fun i hi => absurd hi (Nat.not_lt_zero i), fun _ => hzero⟩
        · rintro ⟨hbefore, _⟩
          have : n = 0 := Nat.eq_zero_of_not_pos fun hpos => hbefore 0 hpos hzero
          simp [scanLen, hzero, this]
      · cases n with
        | zero => simp [scanLen, hzero]
        | succ n =>
            -- the scan goes on behind the first byte, with all indices one lower
            simp only [scanLen, if_neg hzero, Nat.add_right_cancel_iff]
            rw [ih _ (by omega)]
            constructor
            · rintro ⟨hbefore, hend⟩
              refine ⟨?_, fun h => hend (by omega)⟩
              intro i hi
              cases i with
              | zero => exact hzero
              | succ i => exact hbefore i (by omega)
            · rintro ⟨hbefore, hend⟩
              exact ⟨fun i hi => hbefore (i + 1) (by omega), fun h => hend (by omega)⟩

/-- Scanning a C string finds its length, cut to the bound. -/
theorem scanLen_char (s : CStr) (bound : ℕ) : scanLen s.char bound = min s.length bound := by
  rw [scanLen_eq_iff _ (Nat.min_le_right _ _)]
  constructor
  · intro i hi
    exact s.char_ne_zero (by omega)
  · intro h
    exact s.char_of_le (by omega)

/-- The string that the memory `f` holds, in a field of `bound` bytes. -/
def CStr.ofMem (f : ℕ → UInt8) (bound : ℕ) : CStr where
  bytes := (List.range (scanLen f bound)).map f
  nonzero := by
    intro hmem
    obtain ⟨i, hi, hzero⟩ := List.mem_map.mp hmem
    exact ((scanLen_eq_iff f (scanLen_le f bound)).mp rfl).1 i (List.mem_range.mp hi) hzero

theorem CStr.length_ofMem (f : ℕ → UInt8) (bound : ℕ) :
    (CStr.ofMem f bound).length = scanLen f bound := by
  simp [CStr.ofMem, CStr.length]

theorem CStr.char_ofMem (f : ℕ → UInt8) {bound i : ℕ} (hi : i < scanLen f bound) :
    (CStr.ofMem f bound).char i = f i := by
  rw [CStr.char, List.getD_eq_getElem _ _ (by simpa [CStr.ofMem] using hi)]
  simp [CStr.ofMem]

/-- A field holds a string exactly when it starts with its characters and, if there is room, a
terminator follows. -/
theorem CStr.ofMem_eq_iff (f : ℕ → UInt8) {bound : ℕ} {s : CStr} (hs : s.length ≤ bound) :
    CStr.ofMem f bound = s ↔
      (∀ i < s.length, f i = s.char i) ∧ (s.length < bound → f s.length = 0) := by
  constructor
  · rintro rfl
    rw [CStr.length_ofMem]
    exact ⟨fun i hi => (CStr.char_ofMem f hi).symm,
      ((scanLen_eq_iff f (scanLen_le f bound)).mp rfl).2⟩
  · rintro ⟨hchars, hend⟩
    have hlen : scanLen f bound = s.length := by
      rw [scanLen_eq_iff f hs]
      refine ⟨fun i hi => ?_, hend⟩
      rw [hchars i hi]
      exact s.char_ne_zero hi
    apply CStr.ext_char ((CStr.length_ofMem f bound).trans hlen)
    intro i hi
    rw [CStr.length_ofMem, hlen] at hi
    rw [CStr.char_ofMem f (hlen ▸ hi), hchars i hi]

end Mcsos
