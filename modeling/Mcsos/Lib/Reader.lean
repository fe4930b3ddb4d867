import Mcsos.Lib.Bytes
import Mcsos.Lib.Driver

/-!
# Reading structures from memory

A memory is a store of single bytes, addressed by numbers.  `readBytes` fetches a structure of a
known size, one byte after the other, so that `Within` tells which addresses a program looks at.
-/

namespace Mcsos.Prog

open Bytes

variable {ε : Type}

/-- Reads `n` bytes from the address `off` on. -/
def readFrom : (n off : ℕ) → Prog ℕ UInt8 ε (ℕ → UInt8)
  | 0, _ => ret fun _ => 0
  | n + 1, off => do
      let first ← readBlock off
      let rest ← readFrom n (off + 1)
      ret fun i => if i = 0 then first else rest (i - 1)

/-- Reads a structure of `n` bytes. -/
def readBytes (n off : ℕ) : Prog ℕ UInt8 ε (Bytes n) := do
  let f ← readFrom n off
  ret (Bytes.ofFn f)

theorem run_readFrom (mem : ℕ → UInt8) (n off : ℕ) :
    ∃ f, run (readFrom n off : Prog ℕ UInt8 ε _) mem = (.ok f, mem) ∧
      ∀ i < n, f i = mem (off + i) := by
  induction n generalizing off with
  | zero => exact ⟨_, rfl, fun i hi => absurd hi (Nat.not_lt_zero i)⟩
  | succ n ih =>
      obtain ⟨rest, hrun, hrest⟩ := ih (off + 1)
      refine ⟨fun i => if i = 0 then mem off else rest (i - 1), ?_, fun i hi => ?_⟩
      · have hfirst : run (readBlock off : Prog ℕ UInt8 ε _) mem = (.ok (mem off), mem) := rfl
        rw [readFrom, run_bind_ok hfirst, run_bind_ok hrun, run]
      · cases i with
        | zero => rfl
        | succ i =>
            show (if i + 1 = 0 then mem off else rest (i + 1 - 1)) = mem (off + (i + 1))
            rw [if_neg (Nat.succ_ne_zero i), Nat.add_sub_cancel, hrest i (by omega), Nat.add_assoc,
              Nat.add_comm 1]

theorem run_readBytes (mem : ℕ → UInt8) (n off : ℕ) :
    run (readBytes n off : Prog ℕ UInt8 ε _) mem =
      (.ok (Bytes.ofFn fun i => mem (off + i)), mem) := by
  obtain ⟨f, hrun, hf⟩ := run_readFrom mem n off
  have hsame : (Bytes.ofFn f : Bytes n) = Bytes.ofFn fun i => mem (off + i) := by
    apply ext_byte
    intro i hi
    rw [byte_ofFn f hi, byte_ofFn _ hi, hf i hi]
  rw [readBytes, run_bind_ok hrun, run, hsame]

theorem within_readFrom {A : ℕ → Prop} {n off : ℕ} (h : ∀ i < n, A (off + i)) :
    Within A (readFrom n off : Prog ℕ UInt8 ε _) := by
  induction n generalizing off with
  | zero => trivial
  | succ n ih =>
      refine Within.bind ⟨h 0 (Nat.succ_pos n), within_ofExcept⟩ fun first => ?_
      refine Within.bind (ih fun i hi => ?_) fun rest => trivial
      have := h (i + 1) (by omega)
      rwa [Nat.add_assoc, Nat.add_comm 1]

theorem within_readBytes {A : ℕ → Prop} {n off : ℕ} (h : ∀ i < n, A (off + i)) :
    Within A (readBytes n off : Prog ℕ UInt8 ε _) :=
  Within.bind (within_readFrom h) fun _ => trivial

end Mcsos.Prog
