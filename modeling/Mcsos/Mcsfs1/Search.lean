import Mcsos.Lib.FailFast
import Mcsos.Mcsfs1.Invariant
import Mathlib.Data.List.Find

/-!
# Looking up names

What `find_dirent` compares is not quite the name of an entry.  The name field has 27 bytes and its
length is taken with a scan of up to 28, so for a name of 27 bytes the scan runs into the next
entry, or behind the block in the last slot, and the entry is found only if the byte there is zero.
`Dir.Matches` says this (`direntMatches_iff`).
-/

namespace Mcsos.Mcsfs1

open Bytes Function

/-- The names `valid_name` accepts. -/
def ValidName (name : CStr) : Prop := 0 < name.length ∧ name.length ≤ maxName

instance (name : CStr) : Decidable (ValidName name) := inferInstanceAs (Decidable (_ ∧ _))

/-- The byte that follows entry `s` in memory. -/
def Dir.nextByte (dir : Dir) (beyond : UInt8) (s : ℕ) : UInt8 :=
  if s + 1 < direntCount then (dir (s + 1)).byte 0 else beyond

/-- `find_dirent` takes entry `s` for `name`. -/
def Dir.Matches (dir : Dir) (beyond : UInt8) (name : CStr) (s : ℕ) : Prop :=
  dir.Live s ∧ (dir s).name = name ∧ (name.length = maxName → dir.nextByte beyond s = 0)

instance (dir : Dir) (beyond : UInt8) (name : CStr) (s : ℕ) :
    Decidable (dir.Matches beyond name s) := inferInstanceAs (Decidable (_ ∧ _ ∧ _))

/-- The slot that `find_dirent` finds. -/
def Dir.find (dir : Dir) (beyond : UInt8) (name : CStr) : Option ℕ :=
  (List.range direntCount).find? fun s => decide (dir.Matches beyond name s)

/-! ## The comparison -/

variable {d : Disk} {beyond : UInt8} {name : CStr} {s : ℕ}

theorem direntIno_eq (d : Disk) (s : ℕ) : direntIno (d rootDirLba) s = (view d).ent.ino s :=
  (word_slice (o := 0) (d rootDirLba) (by decide)).symm

/-- The bytes the length scan looks at. -/
theorem direntName_eq (hs : s < direntCount) {j : ℕ} (hj : j ≤ maxName) :
    direntName beyond (d rootDirLba) s j =
      if j < maxName then ((view d).ent s).byte (5 + j) else (view d).ent.nextByte beyond s := by
  simp only [direntCount, maxName] at hs hj
  unfold direntName Dir.nextByte view
  simp only [blockSize, maxName, direntCount, rootDirLba]
  by_cases hj' : j < 27
  · rw [if_pos hj', if_pos (by omega), byte_slice _ (by omega), Nat.add_assoc]
  · obtain rfl : j = 27 := by omega
    rw [if_neg hj']
    by_cases hlast : s + 1 < 16
    · rw [if_pos hlast, if_pos (by omega), byte_slice _ (by decide)]
      congr 1
    · rw [if_neg hlast, if_neg (by omega)]

theorem memcmpEq_iff (a b : ℕ → UInt8) (n : ℕ) : memcmpEq a b n = true ↔ ∀ i < n, a i = b i := by
  simp [memcmpEq, List.all_eq_true]

/-- The two comparisons together ask for the characters of the name and a terminator. -/
theorem compare_iff (f : ℕ → UInt8) (hname : name.length ≤ maxName) :
    (strlenBound f (maxName + 1) == name.length && memcmpEq f name.char name.length) = true ↔
      (∀ i < name.length, f i = name.char i) ∧ f name.length = 0 := by
  rw [Bool.and_eq_true, beq_iff_eq, memcmpEq_iff, strlenBound,
    scanLen_eq_iff f (Nat.le_succ_of_le hname)]
  constructor
  · rintro ⟨⟨_, hend⟩, hchars⟩
    exact ⟨hchars, hend (Nat.lt_succ_of_le hname)⟩
  · rintro ⟨hchars, hend⟩
    refine ⟨⟨fun i hi => ?_, fun _ => hend⟩, hchars⟩
    rw [hchars i hi]
    exact name.char_ne_zero hi

theorem direntMatches_iff (d : Disk) (beyond : UInt8) (hname : name.length ≤ maxName)
    (hs : s < direntCount) :
    direntMatches beyond (d rootDirLba) name name.length s = true ↔
      (view d).ent.Matches beyond name s := by
  have hbytes : ∀ {j}, j ≤ maxName → direntName beyond (d rootDirLba) s j =
      if j < maxName then ((view d).ent s).byte (5 + j) else (view d).ent.nextByte beyond s :=
    fun hj => direntName_eq hs hj
  have hchars : (∀ i < name.length, direntName beyond (d rootDirLba) s i = name.char i) ↔
      ∀ i < name.length, ((view d).ent s).byte (5 + i) = name.char i := by
    apply forall₂_congr
    intro i hi
    rw [hbytes (hi.le.trans hname), if_pos (hi.trans_le hname)]
  unfold direntMatches
  rw [Bool.and_assoc, Bool.and_eq_true, compare_iff _ hname, hchars, hbytes hname, bne_iff_ne,
    direntIno_eq]
  unfold Dir.Matches Entry.name
  rw [CStr.ofMem_eq_iff _ hname]
  by_cases hlong : name.length < maxName
  · rw [if_pos hlong]
    have hshort : name.length ≠ maxName := hlong.ne
    constructor
    · rintro ⟨hlive, hbefore, hend⟩
      exact ⟨⟨hs, hlive⟩, ⟨hbefore, fun _ => hend⟩, fun heq => absurd heq hshort⟩
    · rintro ⟨hlive, ⟨hbefore, hend⟩, _⟩
      exact ⟨hlive.2, hbefore, hend hlong⟩
  · rw [if_neg hlong]
    have hfull : name.length = maxName := by omega
    constructor
    · rintro ⟨hlive, hbefore, hend⟩
      exact ⟨⟨hs, hlive⟩, ⟨hbefore, fun h => absurd h hlong⟩, fun _ => hend⟩
    · rintro ⟨hlive, ⟨hbefore, _⟩, hend⟩
      exact ⟨hlive.2, hbefore, hend hfull⟩

theorem find_direntMatches (d : Disk) (beyond : UInt8) (hname : name.length ≤ maxName) :
    (List.range direntCount).find? (direntMatches beyond (d rootDirLba) name name.length) =
      (view d).ent.find beyond name := by
  apply List.find?_congr
  intro s hs
  rw [Bool.eq_iff_iff, decide_eq_true_eq]
  exact direntMatches_iff d beyond hname (List.mem_range.mp hs)

theorem Dir.find_some {dir : Dir} (h : dir.find beyond name = some s) : dir.Matches beyond name s :=
  of_decide_eq_true (List.find?_some (p := fun s => decide (dir.Matches beyond name s)) h)

end Mcsos.Mcsfs1
