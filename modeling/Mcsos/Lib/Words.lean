import Mcsos.Lib.Bytes

/-!
# Words in a flat memory

A memory with a byte for every 64-bit address, and the little-endian words of eight bytes in it.
Addresses are machine words, so a word may lie across the end of the address space; distances
between addresses are taken around it.
-/

namespace Mcsos

/-- A byte for every 64-bit address. -/
abbrev Ram : Type := UInt64 → UInt8

namespace Ram

open Bytes

variable {mem mem' : Ram} {a b x : UInt64}

/-- The word at address `a`. -/
def load (mem : Ram) (a : UInt64) : UInt64 :=
  UInt64.ofNat (word (fun i => mem (a + UInt64.ofNat i)) 8 0)

/-- Stores the word `v` at address `a`. -/
def store (mem : Ram) (a v : UInt64) : Ram := fun x =>
  if (x - a).toNat < 8 then wordBytes v.toNat (x - a).toNat else mem x

/-- The distance upwards from `a` to the address `i` bytes behind it. -/
theorem toNat_add_sub_self {i : ℕ} (hi : i < 2 ^ 64) : (a + UInt64.ofNat i - a).toNat = i := by
  have hcancel : a + UInt64.ofNat i - a = UInt64.ofNat i := by
    rw [UInt64.add_comm, UInt64.add_sub_cancel]
  rw [hcancel, UInt64.toNat_ofNat', Nat.mod_eq_of_lt hi]

/-- A word depends only on its bytes. -/
theorem load_congr (h : ∀ i < 8, mem' (a + UInt64.ofNat i) = mem (a + UInt64.ofNat i)) :
    load mem' a = load mem a := by
  unfold load
  rw [word_congr fun i hi => ?_]
  simpa using h i hi

@[simp] theorem load_store_self (mem : Ram) (a v : UInt64) : load (store mem a v) a = v := by
  have hbytes : word (fun i => store mem a v (a + UInt64.ofNat i)) 8 0 =
      word (wordBytes v.toNat) 8 0 := by
    refine word_congr fun i hi => ?_
    have hdist : (a + UInt64.ofNat (0 + i) - a).toNat = 0 + i := toNat_add_sub_self (by omega)
    simp only [store, hdist]
    rw [if_pos (by omega)]
  have hlt : v.toNat < 256 ^ 8 := v.toNat_lt
  rw [load, hbytes, word_wordBytes, Nat.mod_eq_of_lt hlt, UInt64.ofNat_toNat]

theorem store_of_far (h : 8 ≤ (x - a).toNat) (v : UInt64) : store mem a v x = mem x :=
  if_neg (Nat.not_lt.mpr h)

/-- A word that has no byte in common with the stored one is the old one. -/
theorem load_store_of_apart (h : 8 ≤ (b - a).toNat) (h' : 8 ≤ (a - b).toNat) (v : UInt64) :
    load (store mem a v) b = load mem b := by
  refine load_congr fun i hi => store_of_far ?_ v
  have ha := a.toNat_lt
  have hb := b.toNat_lt
  rw [UInt64.toNat_sub] at h h' ⊢
  rw [UInt64.toNat_add, UInt64.toNat_ofNat']
  omega

/-- The same for two words at displacements from one address. -/
theorem load_store_add {p d c : UInt64} (h : 8 ≤ (d - c).toNat) (h' : 8 ≤ (c - d).toNat)
    (v : UInt64) :
    load (store mem (p + c) v) (p + d) = load mem (p + d) := by
  have hdiff : ∀ k l : UInt64, p + k - (p + l) = k - l := by grind
  exact load_store_of_apart (by rwa [hdiff]) (by rwa [hdiff]) v

/-- Stores the word `v` of four bytes at address `a`. -/
def store32 (mem : Ram) (a : UInt64) (v : UInt32) : Ram := fun x =>
  if (x - a).toNat < 4 then wordBytes v.toNat (x - a).toNat else mem x

theorem load_store32_add {p d c : UInt64} (h : 4 ≤ (d - c).toNat) (h' : 8 ≤ (c - d).toNat)
    (v : UInt32) :
    load (store32 mem (p + c) v) (p + d) = load mem (p + d) := by
  refine load_congr fun i hi => if_neg ?_
  have hc := c.toNat_lt
  have hd := d.toNat_lt
  have hdiff : p + d + UInt64.ofNat i - (p + c) = d + UInt64.ofNat i - c := by grind
  rw [UInt64.toNat_sub] at h h'
  rw [hdiff, UInt64.toNat_sub, UInt64.toNat_add, UInt64.toNat_ofNat']
  omega

/-- The bytes of a word that was read. -/
theorem wordBytes_load (mem : Ram) (a : UInt64) {i : ℕ} (hi : i < 8) :
    wordBytes (load mem a).toNat i = mem (a + UInt64.ofNat i) := by
  have hlt := word_lt (fun i => mem (a + UInt64.ofNat i)) 8 0
  have hword : word (wordBytes (load mem a).toNat) 8 0 =
      word (fun i => mem (a + UInt64.ofNat i)) 8 0 := by
    have h64 :=
      Nat.mod_eq_of_lt (show word (fun i => mem (a + UInt64.ofNat i)) 8 0 < 2 ^ 64 from hlt)
    rw [word_wordBytes, load, UInt64.toNat_ofNat', h64, Nat.mod_eq_of_lt hlt]
  have hbyte := byte_eq_of_word_eq hword i hi
  rwa [Nat.zero_add] at hbyte

theorem add_ofNat_sub (a x : UInt64) : a + UInt64.ofNat (x - a).toNat = x := by
  rw [UInt64.ofNat_toNat]
  grind

/-- Storing the word that is there changes nothing. -/
theorem store_load (mem : Ram) (a : UInt64) : store mem a (load mem a) = mem := by
  funext x
  by_cases hx : (x - a).toNat < 8
  · rw [store, if_pos hx, wordBytes_load mem a hx, add_ofNat_sub]
  · exact store_of_far (Nat.not_lt.mp hx) _

theorem store_store (mem : Ram) (a v w : UInt64) : store (store mem a v) a w = store mem a w := by
  funext x
  by_cases hx : (x - a).toNat < 8
  · simp only [store, if_pos hx]
  · simp only [store, if_neg hx]

/-! ### Words one behind the other -/

/-- The words `ws` stored from `p + 8 * k` on. -/
def storeWords (p : UInt64) : (k : ℕ) → List UInt64 → Ram → Ram
  | _, [], m => m
  | k, w :: ws, m => storeWords p (k + 1) ws (m.store (p + UInt64.ofNat (8 * k)) w)

theorem storeWords_of_far {p x : UInt64} {k : ℕ} {ws : List UInt64} {m : Ram}
    (hlen : 8 * (k + ws.length) < 2 ^ 64) (hx : 8 * (k + ws.length) ≤ (x - p).toNat) :
    storeWords p k ws m x = m x := by
  induction ws generalizing k m with
  | nil => rfl
  | cons w ws ih =>
      rw [List.length_cons] at hlen hx
      rw [storeWords, ih (by omega) (by omega), store_of_far]
      have hp := p.toNat_lt
      have hxlt := x.toNat_lt
      rw [UInt64.toNat_sub] at hx
      rw [UInt64.toNat_sub, UInt64.toNat_add, UInt64.toNat_ofNat']
      omega

/-- A word in front of those that are stored stays. -/
theorem load_storeWords_of_lt {p : UInt64} {j k : ℕ} {ws : List UInt64} {m : Ram}
    (hlen : 8 * (k + ws.length) < 2 ^ 64) (hj : j < k) :
    (storeWords p k ws m).load (p + UInt64.ofNat (8 * j)) = m.load (p + UInt64.ofNat (8 * j)) := by
  induction ws generalizing k m with
  | nil => rfl
  | cons w ws ih =>
      rw [List.length_cons] at hlen
      rw [storeWords, ih (by omega) (by omega)]
      have hp := p.toNat_lt
      refine load_store_of_apart ?_ ?_ w <;>
        rw [UInt64.toNat_sub, UInt64.toNat_add, UInt64.toNat_add, UInt64.toNat_ofNat',
          UInt64.toNat_ofNat'] <;> omega

/-- Each of the words can be read back. -/
theorem load_storeWords {p : UInt64} {j k : ℕ} {ws : List UInt64} {m : Ram}
    (hlen : 8 * (k + ws.length) < 2 ^ 64) (hj : j < ws.length) :
    (storeWords p k ws m).load (p + UInt64.ofNat (8 * (k + j))) = ws[j] := by
  induction ws generalizing j k m with
  | nil => exact absurd hj (Nat.not_lt_zero j)
  | cons w ws ih =>
      rw [List.length_cons] at hlen hj
      rw [storeWords]
      cases j with
      | zero =>
          have hfront : 8 * (k + 1 + ws.length) < 2 ^ 64 := by omega
          change (storeWords p (k + 1) ws (m.store (p + UInt64.ofNat (8 * k)) w)).load
            (p + UInt64.ofNat (8 * k)) = w
          rw [load_storeWords_of_lt hfront (Nat.lt_succ_self k), load_store_self]
      | succ j =>
          have hnext :=
            ih (j := j) (k := k + 1) (m := m.store (p + UInt64.ofNat (8 * k)) w)
            (by omega) (by omega)
          rwa [show k + 1 + j = k + (j + 1) by omega] at hnext

end Ram

end Mcsos
