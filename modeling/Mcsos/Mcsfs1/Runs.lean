import Mcsos.Lib.Run
import Mcsos.Mcsfs1.CrashSafety
import Mcsos.Mcsfs1.FileMap

/-!
# Runs on a healthy device

`Op.apply` is what a call does to the tables, and `Op.step` what it does to the disk.  The last part
follows the first calls after a format, for the concrete runs of the next files.
-/

namespace Mcsos.Mcsfs1

open Bytes Function Prog

/-- What a call returns and makes of the tables of a device of `n` blocks. -/
def Op.apply (n : ℕ) : Op → View → Except Err Unit × View
  | .create beyond name, v => v.create n beyond name
  | .write beyond name data, v => v.write n beyond name data
  | .unlink beyond name, v => v.unlink n beyond name

/-- The disk after a call on a healthy device. -/
def Op.step (mnt : Mount) (o : Op) (d : Disk) : Disk := (run (o.prog mnt) d).2

variable {mnt : Mount} {d : Disk}

theorem Op.runs (o : Op) (hm : MetaOk mnt.dev.blockCount (view d)) :
    Runs mnt.dev (o.prog mnt) d (o.apply mnt.dev.blockCount (view d)).1
      (o.apply mnt.dev.blockCount (view d)).2 := by
  cases o with
  | create beyond name => exact runs_create beyond name hm
  | write beyond name data => exact runs_write beyond name data hm
  | unlink beyond name => exact runs_unlink beyond name hm

theorem view_step (o : Op) (hm : MetaOk mnt.dev.blockCount (view d)) :
    view (o.step mnt d) = (o.apply mnt.dev.blockCount (view d)).2 :=
  (o.runs hm).2.1

theorem metaOk_step (o : Op) (hm : MetaOk mnt.dev.blockCount (view d)) :
    MetaOk mnt.dev.blockCount (view (o.step mnt d)) := by
  rw [view_step o hm]
  exact (o.runs hm).final

/-! ## The first calls -/

section First

variable {n : ℕ} {v : View} {a b : CStr}

theorem freeSlot_eq_some {dir : Dir} {s : ℕ} (hs : s < direntCount) (hfree : ¬ dir.Live s)
    (hlive : ∀ t < s, dir.Live t) : dir.freeSlot = some s := by
  rw [Dir.freeSlot, List.find?_range_eq_some]
  have hzero : dir.ino s = 0 := by
    by_contra hne
    exact hfree ⟨hs, hne⟩
  exact ⟨beq_iff_eq.mpr hzero, List.mem_range.mpr hs, fun t ht => by
    rw [Bool.not_eq_true', beq_eq_false_iff_ne]
    exact (hlive t ht).2⟩

theorem spare_eq_some {ino b : ℕ} (hino : 2 ≤ ino ∧ ino ≤ maxInodes) (hinoFree : v.ib ino = false)
    (hinoBefore : ∀ j, 2 ≤ j → j < ino → v.ib j = true) (hb : dataStartLba ≤ b ∧ b < n)
    (hbFree : v.bb b = false) (hbBefore : ∀ c, dataStartLba ≤ c → c < b → v.bb c = true) :
    v.spare n = some (ino, b) := by
  have hfirst : freeIno v.ib = some ino := by
    rw [freeIno, List.find?_range'_eq_some, List.mem_range'_1]
    simp only [maxInodes] at hino ⊢
    exact ⟨by rw [hinoFree]; rfl, by omega, fun j hj hj' => by rw [hinoBefore j hj hj']; rfl⟩
  have hsecond : freeBlock n v.bb = some b :=
    freeBlock_eq_some_iff.mpr ⟨⟨hb.1, hb.2, hbFree⟩, hbBefore⟩
  exact spare_eq_some_iff.mpr ⟨hfirst, hsecond⟩

theorem create_eq_link {beyond : UInt8} {s ino c : ℕ} (hname : ValidName a)
    (hfind : v.ent.find beyond a = none) (hslot : v.ent.freeSlot = some s)
    (hspare : v.spare n = some (ino, c)) : v.create n beyond a = (.ok (), v.link s ino c a) := by
  rw [View.create, if_neg (not_not.mpr hname), hfind, if_neg (by simp), View.createNew,
    hslot, hspare]

/-- The first file gets slot 0, inode 2 and block 8. -/
theorem create_first (h : Formatted n v) (beyond : UInt8) (ha : ValidName a) :
    v.create n beyond a = (.ok (), v.link 0 2 8 a) := by
  have hfind : v.ent.find beyond a = none := by
    cases hfind : v.ent.find beyond a with
    | none => rfl
    | some s => exact absurd (Dir.find_some hfind).1 (h.not_live s)
  have hn := h.ok.bounds.1
  apply create_eq_link ha hfind
  · exact freeSlot_eq_some (by decide) (h.not_live 0) fun t ht => absurd ht (Nat.not_lt_zero t)
  · exact spare_eq_some (by decide) (h.ib 2) (fun j hj hj' => by omega) ⟨Nat.le_refl _, hn⟩ (h.bb 8)
      fun c hc hc' => absurd hc (Nat.not_le.mpr hc')

/-- The names after the first file. -/
theorem slotOf_first (h : Formatted n v) (ha : ValidName a) :
    (v.link 0 2 8 a).ent.NamesDistinct ∧
      ∀ name, (v.link 0 2 8 a).ent.slotOf name = if name = a then some 0 else none := by
  have hnone : ∀ name, v.ent.slotOf name = none := fun name =>
    slotOf_eq_none fun s hs => absurd hs (h.not_live s)
  have hname : Entry.name (dirent 2 a a.length) = a := dirent_name 2 ha.2
  have hempty : v.ent.NamesDistinct := fun s _ hs => absurd hs (h.not_live s)
  obtain ⟨hdistinct, hslots⟩ :=
    slotOf_link (e := dirent 2 a a.length) hempty (by decide) (h.not_live 0)
    (by rw [dirent_ino a (by decide)]; decide) (hnone _)
  refine ⟨hdistinct, fun name => ?_⟩
  rw [View.link, hslots, hname, hnone]

theorem freeSlot_first (h : Formatted n v) (a : CStr) : (v.link 0 2 8 a).ent.freeSlot = some 1 := by
  have hino : Entry.ino (dirent 2 a a.length) = 2 := dirent_ino a (by decide)
  apply freeSlot_eq_some (by decide)
  · intro hlive
    exact h.not_live 1 ((live_update_of_ne (by decide)).mp hlive)
  · intro t ht
    obtain rfl : t = 0 := by omega
    exact live_update_self (by decide) (by rw [hino]; decide)

theorem spare_first (h : Formatted n v) (hn : 9 < n) (a : CStr) :
    (v.link 0 2 8 a).spare n = some (3, 9) := by
  have hib : ∀ i, (v.link 0 2 8 a).ib i = update v.ib 2 true i := fun _ => rfl
  have hbb : ∀ i, (v.link 0 2 8 a).bb i = update v.bb 8 true i := fun _ => rfl
  apply spare_eq_some (by decide)
  · rw [hib, update_of_ne (by decide), h.ib]
    rfl
  · intro j hj hj'
    obtain rfl : j = 2 := by omega
    rw [hib, update_self]
  · exact ⟨by decide, hn⟩
  · rw [hbb, update_of_ne (by decide), h.bb]
    rfl
  · intro c hc hc'
    obtain rfl : c = 8 := by
      simp only [dataStartLba] at hc
      omega
    rw [hbb, update_self]

/-- The second file gets slot 1, inode 3 and block 9. -/
theorem create_second (h : Formatted n v) (hn : 9 < n) (beyond : UInt8) (ha : ValidName a)
    (hb : ShortName b) (hne : b ≠ a) :
    (v.link 0 2 8 a).create n beyond b = (.ok (), (v.link 0 2 8 a).link 1 3 9 b) := by
  have hfind : (v.link 0 2 8 a).ent.find beyond b = none := by
    rw [find_eq_slotOf beyond hb, (slotOf_first h ha).2, if_neg hne]
  exact create_eq_link hb.valid hfind (freeSlot_first h a) (spare_first h hn a)

/-- The first file stays where it is. -/
theorem slotOf_second (h : Formatted n v) (ha : ValidName a) (hb : ValidName b) (hne : b ≠ a) :
    ((v.link 0 2 8 a).link 1 3 9 b).ent.NamesDistinct ∧
      ((v.link 0 2 8 a).link 1 3 9 b).ent.slotOf a = some 0 := by
  obtain ⟨hdistinct, hfirst⟩ := slotOf_first h ha
  have hname : Entry.name (dirent 3 b b.length) = b := dirent_name 3 hb.2
  have hslots := slotOf_link (s := 1) (e := dirent 3 b b.length)
    hdistinct (by decide) (fun hlive => h.not_live 1 ((live_update_of_ne (by decide)).mp hlive))
    (by rw [dirent_ino b (by decide)]; decide) (by rw [hfirst, hname, if_neg hne])
  refine ⟨hslots.1, ?_⟩
  rw [View.link, hslots.2, hname, if_neg hne.symm, hfirst, if_pos rfl]

theorem view_first (h : Formatted mnt.dev.blockCount (view d)) (beyond : UInt8) (ha : ValidName a) :
    view ((Op.create beyond a).step mnt d) = (view d).link 0 2 8 a := by
  rw [view_step _ h.ok, Op.apply, create_first h beyond ha]

theorem view_second (h : Formatted mnt.dev.blockCount (view d)) (hn : 9 < mnt.dev.blockCount)
    (beyond : UInt8) (ha : ValidName a) (hb : ShortName b) (hne : b ≠ a) :
    view ((Op.create beyond b).step mnt ((Op.create beyond a).step mnt d)) =
      ((view d).link 0 2 8 a).link 1 3 9 b := by
  rw [view_step _ (metaOk_step _ h.ok), view_first h beyond ha, Op.apply,
    create_second h hn beyond ha hb hne]

end First

end Mcsos.Mcsfs1
