import Mcsos.Lib.Words

/-!
# A stack in memory as a list of words

A stack of 64-bit words that grows down from an address `base`, in a flat memory: the list of its
words, the last one pushed first.  A byte of the stack is told by its depth, its distance below
`base`; the word at depth `k` covers the depths from `8 * k` down to `8 * k - 7`.
-/

namespace Mcsos

namespace Stack

variable {mem mem' : Ram} {base x v : UInt64} {ws : List UInt64} {n k i : ℕ}

/-- `x` is one of the `n` bytes below `a`. -/
def Below (a : UInt64) (n : ℕ) (x : UInt64) : Prop := 0 < (a - x).toNat ∧ (a - x).toNat ≤ n

/-- The stack pointer when `n` words are on the stack. -/
def ptr (base : UInt64) (n : ℕ) : UInt64 := base - UInt64.ofNat (8 * n)

/-- The words `ws` are on the stack. -/
def Holds (mem : Ram) (base : UInt64) : List UInt64 → Prop
  | [] => True
  | w :: ws => mem.load (ptr base (ws.length + 1)) = w ∧ Holds mem base ws

theorem ptr_zero (base : UInt64) : ptr base 0 = base := UInt64.sub_zero base

theorem ptr_add (base : UInt64) (n k : ℕ) :
    ptr base (n + k) + UInt64.ofNat (8 * k) = ptr base n := by
  have hsum : UInt64.ofNat (8 * (n + k)) = UInt64.ofNat (8 * n) + UInt64.ofNat (8 * k) := by
    rw [← UInt64.ofNat_add, Nat.mul_add]
  rw [ptr, ptr, hsum]
  grind

/-- A displacement of whole words. -/
theorem ptr_add_words {imm : UInt64} (hword : imm.toNat % 8 = 0) (hle : imm.toNat / 8 ≤ n) :
    ptr base n + imm = ptr base (n - imm.toNat / 8) := by
  have himm : UInt64.ofNat (8 * (imm.toNat / 8)) = imm := by
    rw [Nat.mul_div_cancel' (Nat.dvd_of_mod_eq_zero hword), UInt64.ofNat_toNat]
  have hadd := ptr_add base (n - imm.toNat / 8) (imm.toNat / 8)
  rwa [Nat.sub_add_cancel hle, himm] at hadd

theorem ptr_succ (base : UInt64) (n : ℕ) : ptr base n - 8 = ptr base (n + 1) := by
  rw [← ptr_add base n 1]
  exact UInt64.add_sub_cancel _ _

/-- The depth of a byte of a word. -/
theorem depth_ptr_add (base : UInt64) (hk : 8 * k < 2 ^ 64) (hi : i ≤ 8 * k) :
    (base - (ptr base k + UInt64.ofNat i)).toNat = 8 * k - i := by
  have hbase := base.toNat_lt
  rw [UInt64.toNat_sub, UInt64.toNat_add, ptr, UInt64.toNat_sub, UInt64.toNat_ofNat',
    UInt64.toNat_ofNat']
  omega

theorem depth_ptr (base : UInt64) (hk : 8 * k < 2 ^ 64) : (base - ptr base k).toNat = 8 * k := by
  have hdepth := depth_ptr_add base hk (Nat.zero_le (8 * k))
  rwa [show UInt64.ofNat 0 = 0 from rfl, UInt64.add_zero] at hdepth

/-- How far a byte of the stack lies behind the start of a word. -/
theorem toNat_sub_ptr (hk : 8 * k < 2 ^ 64) (hx : (base - x).toNat ≤ 8 * k) :
    (x - ptr base k).toNat = 8 * k - (base - x).toNat := by
  have hbase := base.toNat_lt
  have hxlt := x.toNat_lt
  rw [UInt64.toNat_sub] at hx ⊢
  rw [UInt64.toNat_sub base x, ptr, UInt64.toNat_sub, UInt64.toNat_ofNat']
  omega

/-- What lies deeper lies far behind it, around the end of the address space. -/
theorem toNat_sub_ptr_of_lt (hk : 8 * k < 2 ^ 64) (hx : 8 * k < (base - x).toNat) :
    (x - ptr base k).toNat = 2 ^ 64 + 8 * k - (base - x).toNat := by
  have hbase := base.toNat_lt
  have hxlt := x.toNat_lt
  rw [UInt64.toNat_sub] at hx ⊢
  rw [UInt64.toNat_sub base x, ptr, UInt64.toNat_sub, UInt64.toNat_ofNat']
  omega

theorem Below.mono (h : Below base k x) (hk : k ≤ n) : Below base n x := ⟨h.1, h.2.trans hk⟩

/-- The bytes below the stack pointer are bytes of the stack area that are deeper than the words. -/
theorem below_ptr_iff (hk : 8 * k + n < 2 ^ 64) :
    Below (ptr base k) n x ↔ 8 * k < (base - x).toNat ∧ (base - x).toNat ≤ 8 * k + n := by
  have hbase := base.toNat_lt
  have hxlt := x.toNat_lt
  rw [Below, UInt64.toNat_sub, UInt64.toNat_sub base x, ptr, UInt64.toNat_sub, UInt64.toNat_ofNat']
  omega

/-! ### Changes of the memory -/

/-- The words depend on their bytes only. -/
theorem Holds.congr (h : Holds mem base ws) (hws : 8 * ws.length < 2 ^ 64)
    (hsame : ∀ x, Below base (8 * ws.length) x → mem' x = mem x) : Holds mem' base ws := by
  induction ws with
  | nil => trivial
  | cons w ws ih =>
      rw [List.length_cons] at hws hsame
      refine ⟨?_, ih h.2 (by omega) fun x hx => hsame x (hx.mono (by omega))⟩
      rw [← h.1]
      refine Ram.load_congr fun i hi => hsame _ ?_
      have hdepth := depth_ptr_add base hws (i := i) (by omega)
      rw [Below, hdepth]
      omega

/-- Storing a word outside the stack. -/
theorem Holds.store_of_apart (h : Holds mem base ws) (hws : 8 * ws.length < 2 ^ 64) {a : UInt64}
    (hfar : ∀ x, Below base (8 * ws.length) x → 8 ≤ (x - a).toNat) :
    Holds (mem.store a v) base ws :=
  h.congr hws fun x hx => Ram.store_of_far (hfar x hx) v

theorem Holds.push (h : Holds mem base ws) (hws : 8 * (ws.length + 1) < 2 ^ 64) (v : UInt64) :
    Holds (mem.store (ptr base (ws.length + 1)) v) base (v :: ws) := by
  refine ⟨Ram.load_store_self mem _ v, h.store_of_apart (by omega) fun x hx => ?_⟩
  obtain ⟨hpos, hle⟩ := hx
  rw [toNat_sub_ptr hws (by omega)]
  omega

/-- The `i`th word from the top. -/
theorem Holds.get (h : Holds mem base ws) (hi : i < ws.length) :
    mem.load (ptr base (ws.length - i)) = ws[i] := by
  induction ws generalizing i with
  | nil => exact absurd hi (Nat.not_lt_zero i)
  | cons w ws ih =>
      cases i with
      | zero => exact h.1
      | succ i =>
          rw [List.length_cons, Nat.add_sub_add_right]
          exact ih h.2 (Nat.lt_of_succ_lt_succ hi)

/-- The same through a displacement from the stack pointer. -/
theorem Holds.load_add (h : Holds mem base ws) {disp w : UInt64} (hword : disp.toNat % 8 = 0)
    (hw : ws[disp.toNat / 8]? = some w) : mem.load (ptr base ws.length + disp) = w := by
  obtain ⟨hlt, hget⟩ := List.getElem?_eq_some_iff.mp hw
  rw [ptr_add_words hword hlt.le, h.get hlt, hget]

theorem Holds.drop (h : Holds mem base ws) (k : ℕ) : Holds mem base (ws.drop k) := by
  induction ws generalizing k with
  | nil => rw [List.drop_nil]; trivial
  | cons w ws ih =>
      cases k with
      | zero => exact h
      | succ k => exact ih h.2 k

theorem Holds.set (h : Holds mem base ws) (hws : 8 * ws.length < 2 ^ 64) (hi : i < ws.length)
    (v : UInt64) :
    Holds (mem.store (ptr base (ws.length - i)) v) base (ws.set i v) := by
  induction ws generalizing i with
  | nil => exact absurd hi (Nat.not_lt_zero i)
  | cons w ws ih =>
      rw [List.length_cons] at hws hi ⊢
      cases i with
      | zero => exact h.2.push hws v
      | succ i =>
          rw [Nat.add_sub_add_right]
          refine ⟨?_, ih h.2 (by omega) (by omega)⟩
          -- the word on top lies at another depth
          rw [← h.1, List.length_set]
          refine Ram.load_store_of_apart ?_ ?_ v
          · have hdepth := depth_ptr base hws
            rw [toNat_sub_ptr_of_lt (by omega) (by rw [hdepth]; omega), hdepth]
            omega
          · have hdepth := depth_ptr base (k := ws.length - i) (by omega)
            rw [toNat_sub_ptr hws (by omega), hdepth]
            omega

/-- Whatever the memory holds, some words are on the stack. -/
theorem exists_holds (mem : Ram) (base : UInt64) (ws : List UInt64)
    (h : Holds mem base ws) (k : ℕ) :
    ∃ front : List UInt64, front.length = k ∧ Holds mem base (front ++ ws) := by
  induction k with
  | zero => exact ⟨[], rfl, h⟩
  | succ k ih =>
      obtain ⟨front, hlen, hfront⟩ := ih
      exact ⟨mem.load (ptr base ((front ++ ws).length + 1)) :: front, by rw [List.length_cons,
        hlen], rfl, hfront⟩

end Stack

end Mcsos
