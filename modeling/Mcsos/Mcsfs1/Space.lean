import Mcsos.Mcsfs1.Runs
import Mathlib.Order.Interval.Finset.Nat

/-!
# Space that is marked and space that is used

In a tight filesystem the bitmaps mark what live entries use and nothing else.  Creating and
unlinking keep it so.  `mcsfs1_write` marks one missing block after the other on the disk, and gives
up without taking the marks back when no block is left.  So it keeps the filesystem tight if the
free blocks are enough, or if there is none to begin with (`Op.Fits`), and otherwise never.
-/

namespace Mcsos.Mcsfs1

open Bytes Function Prog

/-- The bitmaps mark the inodes and blocks of live entries and no others. -/
structure Tight (n : ℕ) (v : View) : Prop where
  ino : ∀ ino, 2 ≤ ino → ino ≤ maxInodes →
    (v.ib ino = true ↔ ∃ s, v.ent.Live s ∧ v.ent.ino s = ino)
  block : ∀ b, dataStartLba ≤ b → b < n → (v.bb b = true ↔ ∃ s i, Owns v.ent v.inode s i b)

/-- The free data blocks. -/
def freeBlocks (n : ℕ) (bb : ℕ → Bool) : Finset ℕ :=
  (Finset.Ico dataStartLba n).filter (bb · = false)

/-- The places among `direct[i], …, direct[i + r - 1]` without a block. -/
def missing (x : Inode) (i r : ℕ) : Finset ℕ := (Finset.Ico i (i + r)).filter (x.direct · = 0)

/-- A write finds the blocks it misses, or no block at all. -/
def Op.Fits (n : ℕ) : Op → View → Prop
  | .write beyond name data, v =>
      ∀ s ino, data.length ≤ directBlocks * blockSize → v.search beyond name = .ok (s, ino) →
        (missing (v.inode ino) 0 (blocksNeeded data.length)).card ≤ (freeBlocks n v.bb).card ∨
          (freeBlocks n v.bb).card = 0
  | _, _ => True

/-! ## Counting in the allocation loop -/

section Counting

variable {n : ℕ} {bb : ℕ → Bool} {b : ℕ}

theorem mem_freeBlocks : b ∈ freeBlocks n bb ↔ (dataStartLba ≤ b ∧ b < n) ∧ bb b = false := by
  rw [freeBlocks, Finset.mem_filter, Finset.mem_Ico]

theorem freeBlock_eq_none : freeBlock n bb = none ↔ (freeBlocks n bb).card = 0 := by
  rw [Finset.card_eq_zero, Finset.eq_empty_iff_forall_notMem]
  constructor
  · intro h b hb
    obtain ⟨⟨hlow, hhigh⟩, hfree⟩ := mem_freeBlocks.mp hb
    rw [freeBlock_none h hlow hhigh] at hfree
    cases hfree
  · intro h
    cases hblock : freeBlock n bb with
    | none => rfl
    | some b =>
        obtain ⟨hlow, hhigh, hfree⟩ := freeBlock_some hblock
        exact absurd (mem_freeBlocks.mpr ⟨⟨hlow, hhigh⟩, hfree⟩) (h b)

/-- Taking a block leaves one less. -/
theorem card_freeBlocks_update (h : freeBlock n bb = some b) :
    (freeBlocks n (update bb b true)).card + 1 = (freeBlocks n bb).card := by
  obtain ⟨hlow, hhigh, hfree⟩ := freeBlock_some h
  have herase : freeBlocks n (update bb b true) = (freeBlocks n bb).erase b := by
    ext c
    rw [Finset.mem_erase, mem_freeBlocks, mem_freeBlocks]
    by_cases hc : c = b
    · subst hc
      simp
    · simp [hc]
  rw [herase, Finset.card_erase_add_one (mem_freeBlocks.mpr ⟨⟨hlow, hhigh⟩, hfree⟩)]

theorem missing_succ_of_zero {x y : Inode} {i r : ℕ} (hzero : x.direct i = 0)
    (hsame : ∀ j, j ≠ i → y.direct j = x.direct j) :
    (missing x i (r + 1)).card = (missing y (i + 1) r).card + 1 := by
  have hinsert : missing x i (r + 1) = insert i (missing y (i + 1) r) := by
    ext j
    rw [Finset.mem_insert, missing, missing, Finset.mem_filter, Finset.mem_filter, Finset.mem_Ico,
      Finset.mem_Ico]
    by_cases hj : j = i
    · subst hj
      simp [hzero]
    · rw [hsame j hj]
      constructor
      · rintro ⟨hrange, h0⟩
        exact Or.inr ⟨by omega, h0⟩
      · rintro (h | ⟨hrange, h0⟩)
        · exact absurd h hj
        · exact ⟨by omega, h0⟩
  rw [hinsert, Finset.card_insert_of_notMem (by simp [missing])]

theorem missing_succ_of_ne {x : Inode} {i r : ℕ} (hne : x.direct i ≠ 0) :
    missing x i (r + 1) = missing x (i + 1) r := by
  ext j
  rw [missing, missing, Finset.mem_filter, Finset.mem_filter, Finset.mem_Ico, Finset.mem_Ico]
  constructor
  · rintro ⟨hrange, h0⟩
    have hj : j ≠ i := by
      rintro rfl
      exact hne h0
    exact ⟨by omega, h0⟩
  · rintro ⟨hrange, h0⟩
    exact ⟨by omega, h0⟩

/-- The loop succeeds just when the free blocks are enough. -/
theorem allocBlocks_eq_none :
    ∀ {r i : ℕ} {x : Inode} {bb : ℕ → Bool},
      (allocBlocks n r i x bb).1 = none ↔ (freeBlocks n bb).card < (missing x i r).card := by
  intro r
  induction r with
  | zero =>
      intro i x bb
      simp [allocBlocks, missing]
  | succ r ih =>
      intro i x bb
      unfold allocBlocks
      by_cases hzero : x.direct i = 0
      · rw [if_pos hzero]
        cases hblock : freeBlock n bb with
        | none =>
            rw [missing_succ_of_zero (y := x) hzero fun _ _ => rfl, freeBlock_eq_none.mp hblock]
            simp
        | some b =>
            dsimp only
            rw [ih, ← card_freeBlocks_update hblock,
              missing_succ_of_zero (y := x.setDirect i b) hzero
              fun j hj => direct_setDirect_of_ne x b hj]
            omega
      · rw [if_neg hzero, ih, missing_succ_of_ne hzero]

/-- A loop that fails has used up all blocks. -/
theorem allocBlocks_exhausted :
    ∀ {r i : ℕ} {x : Inode} {bb : ℕ → Bool}, (allocBlocks n r i x bb).1 = none →
      freeBlocks n (allocBlocks n r i x bb).2 = ∅ := by
  intro r
  induction r with
  | zero =>
      intro i x bb h
      cases h
  | succ r ih =>
      intro i x bb h
      unfold allocBlocks at h ⊢
      by_cases hzero : x.direct i = 0
      · rw [if_pos hzero] at h ⊢
        cases hblock : freeBlock n bb with
        | none => exact Finset.card_eq_zero.mp (freeBlock_eq_none.mp hblock)
        | some b =>
            rw [hblock] at h
            exact ih h
      · rw [if_neg hzero] at h ⊢
        exact ih h

/-- Where there is no free block, none is marked. -/
theorem allocBlocks_of_full (hfull : (freeBlocks n bb).card = 0) :
    ∀ {r i : ℕ} {x : Inode}, (allocBlocks n r i x bb).2 = bb := by
  intro r
  induction r with
  | zero => intro i x; rfl
  | succ r ih =>
      intro i x
      unfold allocBlocks
      by_cases hzero : x.direct i = 0
      · rw [if_pos hzero, freeBlock_eq_none.mpr hfull]
      · rw [if_neg hzero]
        exact ih

end Counting

/-! ## One step -/

section Step

variable {n : ℕ} {v : View} {s : ℕ}

/-- What live files own after a new one is linked. -/
theorem owns_link (hm : MetaOk n v) {ino b : ℕ} (hspare : v.spare n = some (ino, b))
    (hslot : v.ent.freeSlot = some s) (name : CStr) {t i c : ℕ} :
    Owns (v.link s ino b name).ent (v.link s ino b name).inode t i c ↔
      Owns v.ent v.inode t i c ∨ t = s ∧ i = 0 ∧ c = b := by
  obtain ⟨⟨hlow, hhigh, hunmarked⟩, hblow, hbhigh, _⟩ := spare_some hspare
  obtain ⟨hs, hunused⟩ := freeSlot_some hslot
  simp only [dataStartLba] at hblow
  have hn := hm.bounds.2
  have hino : Entry.ino (dirent ino name name.length) = ino :=
    dirent_ino name (hhigh.trans_lt (by decide))
  have hnew : (v.link s ino b name).inode ((v.link s ino b name).ent.ino s) =
      Inode.make modeFile 0 b := by
    dsimp only [View.link]
    rw [ino_update_self, hino, update_self]
  by_cases hts : t = s
  · subst hts
    have hb : b % 2 ^ 32 = b := Nat.mod_eq_of_lt (by omega)
    constructor
    · intro hown
      have hdirect := hown.direct
      rw [hnew] at hdirect
      cases i with
      | zero =>
          rw [direct_make_zero, hb] at hdirect
          exact Or.inr ⟨rfl, rfl, hdirect.symm⟩
      | succ i => exact absurd (hdirect.symm.trans (direct_make_succ _ _ _ i)) hown.nonzero
    · rintro (hown | ⟨-, rfl, rfl⟩)
      · exact absurd hown.live hunused
      · refine ⟨live_update_self hs (by rw [hino]; omega), by decide, ?_, by omega⟩
        rw [hnew, direct_make_zero, hb]
  · have hlive : (v.link s ino b name).ent.Live t ↔ v.ent.Live t := live_update_of_ne hts
    have hsame : v.ent.Live t → (v.link s ino b name).inode ((v.link s ino b name).ent.ino t) =
        v.inode (v.ent.ino t) := by
      intro ht
      dsimp only [View.link]
      rw [ino_update_of_ne hts, update_of_ne (hm.ne_of_unmarked hunmarked ht)]
    constructor
    · intro hown
      have ht := hlive.mp hown.live
      exact Or.inl ⟨ht, hown.place, (hsame ht) ▸ hown.direct, hown.nonzero⟩
    · rintro (hown | ⟨h, _⟩)
      · exact ⟨hlive.mpr hown.live, hown.place, (hsame hown.live).symm ▸ hown.direct, hown.nonzero⟩
      · exact absurd h hts

theorem Tight.link (h : Tight n v) (hm : MetaOk n v) {ino b : ℕ}
    (hspare : v.spare n = some (ino, b)) (hslot : v.ent.freeSlot = some s) (name : CStr) :
    Tight n (v.link s ino b name) := by
  obtain ⟨⟨hlow, hhigh, hunmarked⟩, _⟩ := spare_some hspare
  obtain ⟨hs, hunused⟩ := freeSlot_some hslot
  have hino : Entry.ino (dirent ino name name.length) = ino :=
    dirent_ino name (hhigh.trans_lt (by decide))
  constructor
  · intro j hj hj'
    dsimp only [View.link]
    by_cases hji : j = ino
    · subst hji
      rw [update_self]
      exact ⟨fun _ => ⟨s, live_update_self hs (by rw [hino]; omega), by rw [ino_update_self, hino]⟩,
        fun _ => rfl⟩
    · rw [update_of_ne hji, h.ino j hj hj']
      constructor
      · rintro ⟨t, ht, htino⟩
        have hts : t ≠ s := by
          rintro rfl
          exact hunused ht
        exact ⟨t, (live_update_of_ne hts).mpr ht, (ino_update_of_ne hts).trans htino⟩
      · rintro ⟨t, ht, htino⟩
        have hts : t ≠ s := by
          rintro rfl
          rw [ino_update_self, hino] at htino
          exact hji htino.symm
        exact ⟨t, (live_update_of_ne hts).mp ht, (ino_update_of_ne hts).symm.trans htino⟩
  · intro c hc hc'
    have hown := fun {t i} => owns_link hm hspare hslot name (t := t) (i := i) (c := c)
    simp only [hown, exists_or]
    by_cases hcb : c = b
    · subst hcb
      exact ⟨fun _ => Or.inr ⟨s, 0, rfl, rfl, rfl⟩, fun _ => update_self _ _ _⟩
    · have hsame : (v.link s ino b name).bb c = v.bb c := update_of_ne hcb _ _
      rw [hsame, h.block c hc hc']
      simp [hcb]

theorem Tight.drop (h : Tight n v) (hm : MetaOk n v) (hs : v.ent.Live s) :
    Tight n (v.drop n s) := by
  constructor
  · intro j hj hj'
    dsimp only [View.drop]
    simp only [live_update_zero]
    by_cases hji : j = v.ent.ino s
    · subst hji
      rw [update_self]
      refine ⟨fun hf => absurd hf Bool.false_ne_true, ?_⟩
      rintro ⟨t, ⟨ht, hts⟩, htino⟩
      rw [ino_update_of_ne hts] at htino
      exact absurd (hm.ino_inj t s ht hs htino) hts
    · rw [update_of_ne hji, h.ino j hj hj']
      constructor
      · rintro ⟨t, ht, htino⟩
        have hts : t ≠ s := by
          rintro rfl
          exact hji htino.symm
        exact ⟨t, ⟨ht, hts⟩, (ino_update_of_ne hts).trans htino⟩
      · rintro ⟨t, ⟨ht, hts⟩, htino⟩
        exact ⟨t, ht, (ino_update_of_ne hts).symm.trans htino⟩
  · intro c hc hc'
    have hmarked : (v.drop n s).bb c = clearedBlocks n (v.inode (v.ent.ino s)) v.bb c := rfl
    have hblock := h.block c hc hc'
    rw [hmarked, clearedBlocks, Bool.and_eq_true, hblock, decide_eq_true_eq]
    constructor
    · rintro ⟨⟨t, i, hown⟩, hkept⟩
      have hts : t ≠ s := by
        rintro rfl
        exact hkept i hown.place ⟨hown.direct, hown.nonzero, hc'⟩
      exact ⟨t, i, (owns_update_of_ne hts).mpr hown⟩
    · rintro ⟨t, i, hown⟩
      obtain ⟨hown, hts⟩ := hown.of_update_zero
      refine ⟨⟨t, i, hown⟩, fun j hj hfreed => ?_⟩
      exact hts (hm.block_inj t s i j c hown ⟨hs, hj, hfreed.1, hfreed.2.1⟩).1

theorem Tight.store (h : Tight n v) (hm : MetaOk n v) (hs : v.ent.Live s) {data : List UInt8}
    {y : Inode} {bb : ℕ → Bool}
    (ha : Allocated n v.bb (v.inode (v.ent.ino s)) y bb 0 (blocksNeeded data.length)) :
    Tight n (v.store s data y bb) := by
  refine ⟨h.ino, fun c hc hc' => ?_⟩
  have hmarked : (v.store s data y bb).bb c = bb c := rfl
  have hother : ∀ {t}, v.ent.Live t → t ≠ s →
      (v.store s data y bb).inode (v.ent.ino t) = v.inode (v.ent.ino t) := fun ht hts =>
    update_of_ne (fun heq => hts (hm.ino_inj _ _ ht hs heq)) _ _
  rw [hmarked, ha.marked, h.block c hc hc']
  constructor
  · rintro (⟨t, i, hown⟩ | ⟨j, hj, h0, hy, hne⟩)
    · by_cases hts : t = s
      · subst hts
        -- a place that had a block keeps it
        refine ⟨t, i, hs, hown.place, ?_, hown.nonzero⟩
        have hdirect := hown.direct
        dsimp only [View.store]
        rw [update_self, direct_setSize, ha.old i (hdirect ▸ hown.nonzero), hdirect]
      · exact ⟨t, i, hown.live, hown.place, (hother hown.live hts).symm ▸ hown.direct, hown.nonzero⟩
    · refine ⟨s, j, hs, hj, ?_, hne⟩
      dsimp only [View.store]
      rw [update_self, direct_setSize, hy]
  · rintro ⟨t, i, hown⟩
    have hdirect := hown.direct
    dsimp only [View.store] at hdirect
    by_cases hts : t = s
    · subst hts
      rw [update_self, direct_setSize] at hdirect
      by_cases h0 : (v.inode (v.ent.ino t)).direct i = 0
      · exact Or.inr ⟨i, hown.place, h0, hdirect, hown.nonzero⟩
      · exact Or.inl ⟨t, i, hs, hown.place, (ha.old i h0).symm.trans hdirect, hown.nonzero⟩
    · rw [update_of_ne fun heq => hts (hm.ino_inj t s hown.live hs heq)] at hdirect
      exact Or.inl ⟨t, i, hown.live, hown.place, hdirect, hown.nonzero⟩

theorem put_nospc_iff {data : List UInt8} :
    (v.put n s data).1 = .error .nospc ↔ (freeBlocks n v.bb).card <
      (missing (v.inode (v.ent.ino s)) 0 (blocksNeeded data.length)).card := by
  rw [← allocBlocks_eq_none, View.put]
  cases allocBlocks n (blocksNeeded data.length) 0 (v.inode (v.ent.ino s)) v.bb with
  | mk result bb => cases result <;> simp

/-- A write that runs out of blocks keeps the filesystem tight only if there was none to mark. -/
theorem tight_exhausted_iff (h : Tight n v) (hm : MetaOk n v) {bb : ℕ → Bool} {r : ℕ} {x : Inode}
    (halloc : allocBlocks n r 0 x v.bb = (none, bb)) :
    Tight n { v with bb := bb } ↔ (freeBlocks n v.bb).card = 0 := by
  constructor
  · intro h'
    by_contra hfree
    obtain ⟨b, hb⟩ := Finset.card_ne_zero.mp hfree
    obtain ⟨⟨hlow, hhigh⟩, hunmarked⟩ := mem_freeBlocks.mp hb
    have hall := allocBlocks_exhausted (congrArg Prod.fst halloc)
    rw [halloc] at hall
    -- the loop has marked every block that was free, and nobody owns this one
    have hmarked : bb b = true := by
      by_contra hclear
      have hmem : b ∈ freeBlocks n bb := mem_freeBlocks.mpr ⟨⟨hlow, hhigh⟩, by simpa using hclear⟩
      rw [hall] at hmem
      exact absurd hmem (Finset.notMem_empty b)
    obtain ⟨s, i, hown⟩ := (h'.block b hlow hhigh).mp hmarked
    exact hm.not_owns_of_unmarked hunmarked s i hown
  · intro hfull
    have hsame : bb = v.bb := by
      rw [← allocBlocks_of_full hfull, halloc]
    rw [hsame]
    exact h

theorem tight_create (h : Tight n v) (hm : MetaOk n v) (beyond : UInt8) (name : CStr) :
    Tight n (v.create n beyond name).2 := by
  have hnew : Tight n (v.createNew n name).2 := by
    unfold View.createNew
    cases hslot : v.ent.freeSlot with
    | none => exact h
    | some s =>
        cases hspare : v.spare n with
        | none => exact h
        | some x => exact h.link hm hspare hslot name
  unfold View.create
  split
  · exact h
  · split
    · exact h
    · exact hnew

theorem tight_unlink (h : Tight n v) (hm : MetaOk n v) (beyond : UInt8) (name : CStr) :
    Tight n (v.unlink n beyond name).2 := by
  unfold View.unlink
  cases hsearch : v.search beyond name with
  | error e => exact h
  | ok x => exact h.drop hm (search_ok hsearch).2.2.1

theorem tight_write_iff (h : Tight n v) (hm : MetaOk n v) (beyond : UInt8) (name : CStr)
    (data : List UInt8) :
    Tight n (v.write n beyond name data).2 ↔ (Op.write beyond name data).Fits n v := by
  unfold View.write
  by_cases hlen : directBlocks * blockSize < data.length
  · rw [if_pos hlen]
    exact ⟨fun _ _ _ hle => absurd hlen (Nat.not_lt.mpr hle), fun _ => h⟩
  rw [if_neg hlen]
  have hlen' := Nat.le_of_not_lt hlen
  cases hsearch : v.search beyond name with
  | error e =>
      refine ⟨fun _ s ino _ hfound => ?_, fun _ => h⟩
      rw [hsearch] at hfound
      cases hfound
  | ok x =>
      obtain ⟨s, ino⟩ := x
      obtain ⟨-, -, hlive, rfl⟩ := search_ok hsearch
      have hfits : (Op.write beyond name data).Fits n v ↔
          (missing (v.inode (v.ent.ino s)) 0 (blocksNeeded data.length)).card ≤
            (freeBlocks n v.bb).card ∨ (freeBlocks n v.bb).card = 0 := by
        refine ⟨fun hf => hf s _ hlen' hsearch, fun hf t ino _ hfound => ?_⟩
        rw [hsearch] at hfound
        cases hfound
        exact hf
      dsimp only
      rw [hfits]
      -- out of blocks, or stored: the count of blocks tells which
      rcases put_cases hm s hlen' with ⟨bb, halloc, hput⟩ | ⟨y, bb, ha, hput⟩
      · have hmany := allocBlocks_eq_none.mp (congrArg Prod.fst halloc)
        rw [hput]
        dsimp only
        rw [tight_exhausted_iff h hm halloc]
        omega
      · rw [hput]
        refine ⟨fun _ => Or.inl ?_, fun _ => h.store hm hlive ha⟩
        by_contra hmany
        have herror := put_nospc_iff.mpr (Nat.lt_of_not_le hmany)
        rw [hput] at herror
        cases herror

theorem tight_apply_iff (h : Tight n v) (hm : MetaOk n v) (o : Op) :
    Tight n (o.apply n v).2 ↔ o.Fits n v := by
  cases o with
  | create beyond name => exact ⟨fun _ => trivial, fun _ => tight_create h hm beyond name⟩
  | write beyond name data => exact tight_write_iff h hm beyond name data
  | unlink beyond name => exact ⟨fun _ => trivial, fun _ => tight_unlink h hm beyond name⟩

end Step

/-! ## Runs -/

theorem Formatted.tight {n : ℕ} {v : View} (h : Formatted n v) : Tight n v := by
  constructor
  · intro ino hlow _
    refine ⟨fun hmarked => ?_, fun ⟨s, hs, _⟩ => absurd hs (h.not_live s)⟩
    rw [h.ib, decide_eq_true_eq] at hmarked
    simp only [rootIno] at hmarked
    omega
  · intro b hlow _
    refine ⟨fun hmarked => ?_, fun ⟨s, i, hown⟩ => absurd hown.live (h.not_live s)⟩
    rw [h.bb, decide_eq_true_eq] at hmarked
    omega

/-- Nothing is marked for want of a file. -/
theorem Tight.free {n : ℕ} {v : View} (h : Tight n v) (hempty : ∀ s, ¬ v.ent.Live s) :
    ∀ b, dataStartLba ≤ b → b < n → v.bb b = false := by
  intro b hlow hhigh
  by_contra hmarked
  obtain ⟨s, i, hown⟩ := (h.block b hlow hhigh).mp (by simpa using hmarked)
  exact hempty s hown.live

/-- **Space.**  On a healthy device, along any run from a format, the bitmaps mark what live entries
use and nothing else (so that all data blocks are free when there are no files) just when every
write of the run fits: the free blocks are enough for it, or there is none. -/
theorem space_tight_iff (mnt : Mount) {d d₁ : Disk}
    (hformat : run (format mnt.dev) d = (.ok (), d₁))
    (ops : List Op) :
    AllStates (Op.step mnt) (fun d => Tight mnt.dev.blockCount (view d) ∧
        ((∀ s, ¬ (view d).ent.Live s) →
          ∀ b, dataStartLba ≤ b → b < mnt.dev.blockCount → (view d).bb b = false)) ops d₁ ↔
      AllSteps (Op.step mnt) (fun o d => o.Fits mnt.dev.blockCount (view d)) ops d₁ := by
  have hformatted := format_formatted hformat
  constructor
  · apply AllStates.steps (I := fun d => MetaOk mnt.dev.blockCount (view d))
    · intro o d hm h h'
      rw [view_step o hm] at h'
      exact (tight_apply_iff h.1 hm o).mp h'.1
    · exact fun o d hm _ => metaOk_step o hm
    · exact hformatted.ok
  · intro hsteps
    have hrun := AllSteps.invariant (I := fun d => MetaOk mnt.dev.blockCount (view d) ∧
      Tight mnt.dev.blockCount (view d)) (fun o d h hfits => ?_) ⟨hformatted.ok, hformatted.tight⟩
      hsteps
    · exact hrun.mono fun d h => ⟨h.2, h.2.free⟩
    · refine ⟨metaOk_step o h.1, ?_⟩
      rw [view_step o h.1]
      exact (tight_apply_iff h.2 h.1 o).mpr hfits

/-- A new file misses all blocks but the first. -/
theorem card_missing_make {b : ℕ} (hb : 0 < b ∧ b < 2 ^ 32) (r : ℕ) :
    (missing (Inode.make modeFile 0 b) 0 (r + 1)).card = r := by
  have hfirst : (Inode.make modeFile 0 b).direct 0 ≠ 0 := by
    rw [direct_make_zero, Nat.mod_eq_of_lt hb.2]
    exact hb.1.ne'
  have hrest : ∀ j ∈ Finset.Ico 1 (1 + r), (Inode.make modeFile 0 b).direct j = 0 := by
    intro j hj
    obtain ⟨k, rfl⟩ :=
      Nat.exists_eq_succ_of_ne_zero (Nat.one_le_iff_ne_zero.mp (Finset.mem_Ico.mp hj).1)
    exact direct_make_succ modeFile 0 b k
  rw [missing_succ_of_ne hfirst, missing, Finset.filter_true_of_mem hrest, Nat.card_Ico]
  omega

/-- One block is enough for the first bytes of a new file. -/
theorem fits_first {n : ℕ} {v : View} {a : CStr} (h : Formatted n v) (ha : ShortName a)
    (beyond : UInt8) {data : List UInt8} (hdata : blocksNeeded data.length = 1) :
    (Op.write beyond a data).Fits n (v.link 0 2 8 a) := by
  intro s ino _ hfound
  have hino : (v.link 0 2 8 a).ent.ino 0 = 2 := ino_update_self.trans (dirent_ino _ (by decide))
  have hinode : (v.link 0 2 8 a).inode 2 = Inode.make modeFile 0 8 := by
    dsimp only [View.link]
    rw [update_self]
  rw [search_short beyond ha, (slotOf_first h ha.valid).2, if_pos rfl] at hfound
  cases hfound
  rw [hino, hinode, hdata, card_missing_make (by decide) 0]
  exact Or.inl (Nat.zero_le _)

theorem space_tight_iff_one_file :
    AllStates (Op.step ⟨⟨16⟩, 16, 8⟩) (fun d => Tight 16 (view d) ∧
        ((∀ s, ¬ (view d).ent.Live s) → ∀ b, dataStartLba ≤ b → b < 16 → (view d).bb b = false))
      [.create 0 ⟨[97], by decide⟩, .write 0 ⟨[97], by decide⟩ [1], .unlink 0 ⟨[97], by decide⟩]
      (run (format ⟨16⟩) fun _ => zero).2 := by
  obtain ⟨d₁, hformat, hformatted⟩ := run_format ⟨16⟩ (by decide) (by decide) fun _ => zero
  rw [hformat]
  refine (space_tight_iff ⟨⟨16⟩, 16, 8⟩ hformat _).mpr ⟨trivial, ?_, trivial, trivial⟩
  dsimp only
  rw [view_first hformatted 0 (by decide)]
  exact fits_first hformatted (by decide) 0 rfl

/-- With two files on a device of 16 blocks, eight blocks for the first one are too many. -/
theorem allocBlocks_two_files {v : View} {a b : CStr} (h : Formatted 16 v) :
    let w := (v.link 0 2 8 a).link 1 3 9 b
    w.ent.ino 0 = 2 ∧ (missing (w.inode 2) 0 8).card = 7 ∧ (freeBlocks 16 w.bb).card = 6 := by
  intro w
  have hino : w.ent.ino 0 = 2 := by
    dsimp only [w, View.link]
    rw [ino_update_of_ne (by decide), ino_update_self, dirent_ino a (by decide)]
  have hinode : w.inode 2 = Inode.make modeFile 0 8 := by
    dsimp only [w, View.link]
    rw [update_of_ne (by decide), update_self]
  have hbb : w.bb = fun c => decide (c < 10) := by
    funext c
    dsimp only [w, View.link]
    by_cases h9 : c = 9
    · rw [h9, update_self]
      rfl
    · by_cases h8 : c = 8
      · rw [h8, update_of_ne (by decide), update_self]
        rfl
      · rw [update_of_ne h9, update_of_ne h8, h.bb, decide_eq_decide, dataStartLba]
        omega
  refine ⟨hino, ?_, ?_⟩
  · rw [hinode]
    exact card_missing_make (by decide) 7
  · rw [hbb]
    decide

/-- Two files on a device with eight data blocks, and a write of eight blocks to the first one: six
blocks are left, and they are marked for nobody. -/
theorem write_leaks_blocks :
    let mnt : Mount := ⟨⟨16⟩, 16, 8⟩
    let a : CStr := ⟨[97], by decide⟩
    let b : CStr := ⟨[98], by decide⟩
    let d := (Op.create 0 b).step mnt ((Op.create 0 a).step mnt (run (format ⟨16⟩) fun _ => zero).2)
    (run (write 0 mnt a (List.replicate 4096 0)) d).1 = .error .nospc ∧
      ¬ Tight 16 (view ((Op.write 0 a (List.replicate 4096 0)).step mnt d)) := by
  intro mnt a b d
  obtain ⟨d₁, hformat, hformatted⟩ := run_format ⟨16⟩ (by decide) (by decide) fun _ => zero
  have hm₁ : MetaOk mnt.dev.blockCount (view ((Op.create 0 a).step mnt d₁)) :=
    metaOk_step _ hformatted.ok
  have hm : MetaOk mnt.dev.blockCount (view d) := by
    dsimp only [d]
    rw [hformat]
    exact metaOk_step _ hm₁
  have hview : view d = ((view d₁).link 0 2 8 a).link 1 3 9 b := by
    dsimp only [d]
    rw [hformat]
    exact view_second hformatted (by decide) 0 (by decide) (by decide) (by decide)
  have htight : Tight 16 (view d) := by
    have hfirst := tight_create hformatted.tight hformatted.ok 0 a
    rw [create_first hformatted 0 (by decide)] at hfirst
    have hone : view ((Op.create 0 a).step mnt d₁) = (view d₁).link 0 2 8 a :=
      view_first hformatted 0 (by decide)
    rw [hone] at hm₁
    have hsecond := tight_create hfirst hm₁ 0 b
    rw [create_second hformatted (by decide) 0 (by decide) (by decide) (by decide)] at hsecond
    rw [hview]
    exact hsecond
  have hsearch : (view d).search 0 a = .ok (0, 2) := by
    rw [search_short 0 (by decide), hview,
      (slotOf_second hformatted (by decide) (by decide) (by decide)).2]
    dsimp only
    rw [(allocBlocks_two_files hformatted).1]
  obtain ⟨hino, hmissing, hfree⟩ := allocBlocks_two_files (a := a) (b := b) hformatted
  rw [← hview] at hino hmissing hfree
  have hlen : (List.replicate 4096 (0 : UInt8)).length = 4096 := List.length_replicate
  generalize List.replicate 4096 (0 : UInt8) = data at hlen
  have hneeded : blocksNeeded data.length = 8 := by
    rw [hlen]
    rfl
  have hnofit : ¬ (Op.write 0 a data).Fits 16 (view d) := by
    intro hfits
    have := hfits 0 2 (by rw [hlen]; decide) hsearch
    rw [hneeded, hmissing, hfree] at this
    omega
  constructor
  · have hrun : (run (write 0 mnt a data) d).1 = ((view d).write 16 0 a data).1 :=
      (runs_write 0 a data hm).1
    rw [hrun, View.write, if_neg (by rw [hlen]; decide), hsearch]
    dsimp only
    rw [put_nospc_iff, hino, hneeded, hmissing, hfree]
    decide
  · rw [view_step _ hm]
    exact fun h' => hnofit ((tight_write_iff htight hm 0 a data).mp h')

end Mcsos.Mcsfs1
