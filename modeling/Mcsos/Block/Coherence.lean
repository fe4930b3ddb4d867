import Mcsos.Block.Cache

/-!
# Coherence of the buffer cache

`L` is the content that the users of the cache see: at each address the data of the last write that
succeeded, or what the device held at the start.  `Coherent L n es d` relates it to the `n` entries
`es` and to the devices `d`.  Each function of the cache keeps it, whatever device requests fail,
and so it holds in every state that is reached (`cache_coherent`).
-/

namespace Mcsos.Block

open Prog Function

variable {δ : Type} {bs : ℕ}

/-- The contents of all devices. -/
abbrev Store (δ : Type) (bs : ℕ) : Type := δ × ℕ → Bytes bs

/-- The entry is a valid copy of the block at `a`. -/
def Entry.Holds (e : Entry δ bs) (a : δ × ℕ) : Prop :=
  e.valid = true ∧ e.dev = some a.1 ∧ e.lba = a.2

/-- The entries `es 0, …, es (n - 1)` and the devices `d` together have the content `L`. -/
structure Coherent (L : Store δ bs) (n : ℕ) (es : ℕ → Entry δ bs) (d : Store δ bs) : Prop where
  bound : ∀ i < n, (es i).valid = true → ∃ a, (es i).Holds a
  unique : ∀ i < n, ∀ j < n, ∀ a, (es i).Holds a → (es j).Holds a → i = j
  dirty : ∀ i < n, (es i).dirty = true → (es i).valid = true
  clean : ∀ i < n, ∀ a, (es i).Holds a → (es i).dirty = false → (es i).data = d a
  latest : ∀ i < n, ∀ a, (es i).Holds a → (es i).data = L a
  stored : ∀ a, (∀ i < n, ¬ (es i).Holds a) → d a = L a

theorem Entry.Holds.inj {e : Entry δ bs} {a b : δ × ℕ} (ha : e.Holds a) (hb : e.Holds b) :
    a = b := by
  have hdev : some a.1 = some b.1 := ha.2.1.symm.trans hb.2.1
  exact Prod.ext (Option.some.inj hdev) (ha.2.2.symm.trans hb.2.2)

/-! ## Changes to one entry -/

section Changes

variable {L : Store δ bs} {n : ℕ} {es : ℕ → Entry δ bs} {d : Store δ bs} {i : ℕ} {e : Entry δ bs}

/-- Different entries hold different blocks. -/
theorem Coherent.ne_of_holds (h : Coherent L n es d) (hi : i < n) {a b : δ × ℕ}
    (ha : (es i).Holds a) {j : ℕ} (hj : j < n) (hji : j ≠ i) (hb : (es j).Holds b) : b ≠ a := by
  rintro rfl
  exact hji (h.unique j hj i hi b hb ha)

/-- A block without a copy is on its device. -/
theorem Coherent.stored_of_not_held (h : Coherent L n es d) {b : δ × ℕ} (hself : ¬ (es i).Holds b)
    (hothers : ∀ j < n, j ≠ i → ¬ (es j).Holds b) : d b = L b := by
  refine h.stored b fun j hj hjb => ?_
  by_cases hji : j = i
  · exact hself (hji ▸ hjb)
  · exact hothers j hj hji hjb

/-- A block whose only copy is clean is on its device. -/
theorem Coherent.stored_of_clean (h : Coherent L n es d) (hi : i < n)
    (hclean : (es i).dirty = false) {b : δ × ℕ} (hothers : ∀ j < n, j ≠ i → ¬ (es j).Holds b) :
    d b = L b := by
  by_cases hself : (es i).Holds b
  · calc d b = (es i).data := (h.clean i hi b hself hclean).symm
      _ = L b := h.latest i hi b hself
  · exact h.stored_of_not_held hself hothers

/-- The other entries do not notice a change of entry `i`. -/
theorem holds_update_of_ne {j : ℕ} {b : δ × ℕ} (hji : j ≠ i) :
    (update es i e j).Holds b ↔ (es j).Holds b := by
  rw [update_of_ne hji]

/-- Entry `i` may be replaced by `e`, with changes to `L` and `d`, if `e` is a good entry, the
blocks of the other entries do not change, and blocks that lose their copy are on the device. -/
theorem Coherent.replace (h : Coherent L n es d) {L' d' : Store δ bs}
    (hbound : e.valid = true → ∃ a, e.Holds a) (hdirty : e.dirty = true → e.valid = true)
    (hunique : ∀ a, e.Holds a → ∀ j < n, j ≠ i → ¬ (es j).Holds a)
    (hclean : ∀ a, e.Holds a → e.dirty = false → e.data = d' a)
    (hlatest : ∀ a, e.Holds a → e.data = L' a)
    (hothers : ∀ a, ∀ j < n, j ≠ i → (es j).Holds a → L' a = L a ∧ d' a = d a)
    (hstored : ∀ a, (i < n → ¬ e.Holds a) → (∀ j < n, j ≠ i → ¬ (es j).Holds a) → d' a = L' a) :
    Coherent L' n (update es i e) d' := by
  -- each clause: entry `i` by the hypotheses on `e`, the other ones by coherence before
  constructor
  · intro j hj hvalid
    by_cases hji : j = i
    · rw [hji, update_self] at hvalid ⊢
      exact hbound hvalid
    · rw [update_of_ne hji] at hvalid ⊢
      exact h.bound j hj hvalid
  · intro j hj k hk a hja hka
    by_cases hji : j = i <;> by_cases hki : k = i
    · exact hji.trans hki.symm
    · rw [hji, update_self] at hja
      rw [update_of_ne hki] at hka
      exact absurd hka (hunique a hja k hk hki)
    · rw [hki, update_self] at hka
      rw [update_of_ne hji] at hja
      exact absurd hja (hunique a hka j hj hji)
    · rw [update_of_ne hji] at hja
      rw [update_of_ne hki] at hka
      exact h.unique j hj k hk a hja hka
  · intro j hj hjdirty
    by_cases hji : j = i
    · rw [hji, update_self] at hjdirty ⊢
      exact hdirty hjdirty
    · rw [update_of_ne hji] at hjdirty ⊢
      exact h.dirty j hj hjdirty
  · intro j hj a ha hjclean
    by_cases hji : j = i
    · rw [hji, update_self] at ha hjclean ⊢
      exact hclean a ha hjclean
    · rw [update_of_ne hji] at ha hjclean ⊢
      rw [(hothers a j hj hji ha).2]
      exact h.clean j hj a ha hjclean
  · intro j hj a ha
    by_cases hji : j = i
    · rw [hji, update_self] at ha ⊢
      exact hlatest a ha
    · rw [update_of_ne hji] at ha ⊢
      rw [(hothers a j hj hji ha).1]
      exact h.latest j hj a ha
  · intro a ha
    refine hstored a (fun hi he => ha i hi ?_) fun j hj hji hja => ha j hj ?_
    · rw [update_self]
      exact he
    · exact (holds_update_of_ne hji).mpr hja

/-- A clean entry may be given up. -/
theorem Coherent.invalidate (h : Coherent L n es d) (hi : i < n) (hclean : (es i).dirty = false)
    (hinvalid : e.valid = false) (hdirty : e.dirty = false) : Coherent L n (update es i e) d := by
  have hnone : ∀ a, ¬ e.Holds a := fun a ha =>
    absurd (hinvalid.symm.trans ha.1) Bool.false_ne_true
  apply h.replace
  · intro hvalid
    exact absurd (hinvalid.symm.trans hvalid) Bool.false_ne_true
  · intro hdirty'
    exact absurd (hdirty.symm.trans hdirty') Bool.false_ne_true
  · exact fun a ha => absurd ha (hnone a)
  · exact fun a ha => absurd ha (hnone a)
  · exact fun a ha => absurd ha (hnone a)
  · exact fun a j hj hji ha => ⟨rfl, rfl⟩
  · exact fun a _ hothers => h.stored_of_clean hi hclean hothers

variable [DecidableEq δ]

/-- A clean entry may take a block that no entry holds. -/
theorem Coherent.install (h : Coherent L n es d) (hi : i < n) (hclean : (es i).dirty = false)
    {a : δ × ℕ} (habsent : ∀ j < n, ¬ (es j).Holds a) (he : e.Holds a)
    (hdata : e.dirty = false → e.data = d a) :
    Coherent (update L a e.data) n (update es i e) d := by
  apply h.replace
  · exact fun _ => ⟨a, he⟩
  · exact fun _ => he.1
  · intro b hb j hj _
    rw [hb.inj he]
    exact habsent j hj
  · intro b hb hcleane
    rw [hb.inj he]
    exact hdata hcleane
  · intro b hb
    rw [hb.inj he, update_self]
  · intro b j hj _ hb
    have hba : b ≠ a := fun heq => habsent j hj (heq ▸ hb)
    rw [update_of_ne hba]
    exact ⟨rfl, rfl⟩
  · intro b hb hothers
    have hba : b ≠ a := fun heq => hb hi (heq ▸ he)
    rw [update_of_ne hba]
    exact h.stored_of_clean hi hclean hothers

/-- The copy in an entry may be changed, and is dirty then. -/
theorem Coherent.overwrite (h : Coherent L n es d) (hi : i < n) {a : δ × ℕ} (ha : (es i).Holds a)
    (buffer : Bytes bs) :
    Coherent (update L a buffer) n (update es i { es i with data := buffer, dirty := true }) d := by
  have hholds : ∀ b, { es i with data := buffer, dirty := true }.Holds b → b = a := fun b hb =>
    Entry.Holds.inj (show (es i).Holds b from hb) ha
  apply h.replace
  · exact fun _ => ⟨a, ha⟩
  · exact fun _ => ha.1
  · intro b hb j hj hji hjb
    exact h.ne_of_holds hi hb hj hji hjb rfl
  · intro b _ hclean
    exact absurd hclean.symm Bool.false_ne_true
  · intro b hb
    rw [hholds b hb, update_self]
  · intro b j hj hji hb
    rw [update_of_ne (h.ne_of_holds hi ha hj hji hb)]
    exact ⟨rfl, rfl⟩
  · intro b hb hothers
    have hba : b ≠ a := fun heq => hb hi (heq ▸ ha)
    rw [update_of_ne hba]
    exact h.stored_of_not_held (hb hi) hothers

/-- Writing a copy back makes it clean. -/
theorem Coherent.writeBack (h : Coherent L n es d) (hi : i < n) {a : δ × ℕ} (ha : (es i).Holds a) :
    Coherent L n (update es i { es i with dirty := false }) (update d a (es i).data) := by
  have hholds : ∀ b, { es i with dirty := false }.Holds b → b = a := fun b hb =>
    Entry.Holds.inj (show (es i).Holds b from hb) ha
  apply h.replace
  · exact fun _ => ⟨a, ha⟩
  · exact fun _ => ha.1
  · intro b hb j hj hji hjb
    exact h.ne_of_holds hi hb hj hji hjb rfl
  · intro b hb _
    rw [hholds b hb, update_self]
  · intro b hb
    rw [hholds b hb]
    exact h.latest i hi a ha
  · intro b j hj hji hb
    rw [update_of_ne (h.ne_of_holds hi ha hj hji hb)]
    exact ⟨rfl, rfl⟩
  · intro b hb hothers
    have hba : b ≠ a := fun heq => hb hi (heq ▸ ha)
    rw [update_of_ne hba]
    exact h.stored_of_not_held (hb hi) hothers

end Changes

/-! ## The functions of the cache -/

section Functions

variable [DecidableEq δ] (devs : δ → Device)

/-- The three things `mcsos_bcache_flush_entry` can do. -/
inductive Flushed (e : Entry δ bs) (d : Store δ bs) :
    Except Err Unit × Entry δ bs → Store δ bs → Prop
  | idle (h : e.valid = false ∨ e.dirty = false) : Flushed e d (.ok (), e) d
  | written (a : δ × ℕ) (h : e.Holds a) :
      Flushed e d (.ok (), { e with dirty := false }) (update d a e.data)
  | failed (st : Err) : Flushed e d (.error st, e) d

theorem blkWriteOne_ends (dev : Option δ) (lba : ℕ) (data : Bytes bs) (d : Store δ bs) :
    Ends (fun r d' => (∃ st, r = .error st ∧ d' = d) ∨
        ∃ p, dev = some p ∧ r = .ok () ∧ d' = update d (p, lba) data)
      (blkWriteOne devs dev lba data) d := by
  unfold blkWriteOne
  cases dev with
  | none => exact Or.inl ⟨_, rfl, rfl⟩
  | some p =>
      dsimp only
      cases validateRange (devs p) lba 1 with
      | error st => exact Or.inl ⟨st, rfl, rfl⟩
      | ok _ => exact ⟨Or.inr ⟨p, rfl, rfl, rfl⟩, fun st => Or.inl ⟨st, rfl, rfl⟩⟩

theorem blkReadOne_ends (p : δ) (lba : ℕ) (d : Store δ bs) :
    Ends (fun r d' => d' = d ∧ ∀ data, r = .ok data →
        data = d (p, lba) ∧ lba < (devs p).blockCount) (blkReadOne devs p lba) d := by
  unfold blkReadOne
  rw [validateRange_one]
  by_cases hlba : lba < (devs p).blockCount
  · rw [if_pos hlba]
    refine ⟨⟨rfl, fun data h => ?_⟩, fun st => ⟨rfl, fun data h => ?_⟩⟩
    · cases h
      exact ⟨rfl, hlba⟩
    · cases h
  · rw [if_neg hlba]
    exact ⟨rfl, fun data h => by cases h⟩

theorem flushEntry_returns (e : Entry δ bs) (d : Store δ bs) :
    Returns (Flushed e d) (flushEntry devs e) d := by
  unfold flushEntry
  by_cases hidle : e.valid = false ∨ e.dirty = false
  · rw [if_pos hidle]
    exact Returns.ret (Flushed.idle hidle)
  rw [if_neg hidle]
  have hvalid : e.valid = true := by
    by_contra hne
    exact hidle (Or.inl (by simpa using hne))
  refine (blkWriteOne_ends devs e.dev e.lba e.data d).attempt.bind fun st d' hst => ?_
  rcases hst with ⟨err, rfl, rfl⟩ | ⟨p, hdev, rfl, rfl⟩
  · exact Returns.ret (Flushed.failed err)
  · exact Returns.ret (Flushed.written (p, e.lba) ⟨hvalid, hdev, rfl⟩)

variable {L : Store δ bs} {n : ℕ} {es : ℕ → Entry δ bs} {d : Store δ bs} {i : ℕ}

/-- Flushing an entry keeps coherence, and makes it clean if it succeeds. -/
theorem Flushed.coherent {x : Except Err Unit × Entry δ bs} {d' : Store δ bs}
    (hf : Flushed (es i) d x d') (h : Coherent L n es d) (hi : i < n) :
    Coherent L n (update es i x.2) d' ∧ (x.1 = .ok () → x.2.dirty = false) := by
  cases hf with
  | idle hidle =>
      refine ⟨by rw [update_eq_self]; exact h, fun _ => ?_⟩
      by_contra hdirty
      have hvalid := h.dirty i hi (by simpa using hdirty)
      rcases hidle with hinvalid | hclean
      · rw [hvalid] at hinvalid
        cases hinvalid
      · exact hdirty hclean
  | written a ha => exact ⟨h.writeBack hi ha, fun _ => rfl⟩
  | failed st => exact ⟨by rw [update_eq_self]; exact h, fun hst => by cases hst⟩

/-- Flushing does not change what an entry holds. -/
theorem Flushed.holds {x : Except Err Unit × Entry δ bs} {d' : Store δ bs}
    (hf : Flushed (es i) d x d') (j : ℕ) (b : δ × ℕ) :
    (update es i x.2 j).Holds b ↔ (es j).Holds b := by
  by_cases hji : j = i
  · rw [hji, update_self]
    cases hf with
    | idle _ => exact Iff.rfl
    | written a _ => exact Iff.rfl
    | failed _ => exact Iff.rfl
  · exact holds_update_of_ne hji

theorem find_some {c : Cache δ bs} {p : δ} {lba : ℕ} (h : c.find p lba = some i) :
    i < c.entryCount ∧ (c.entries i).Holds (p, lba) := by
  have hmem := List.mem_range.mp (List.mem_of_find?_eq_some h)
  have hfound := List.find?_some h
  simp only [Bool.and_eq_true, decide_eq_true_eq, beq_iff_eq] at hfound
  exact ⟨hmem, hfound.1.1, hfound.1.2, hfound.2⟩

theorem find_none {c : Cache δ bs} {p : δ} {lba : ℕ} (h : c.find p lba = none) :
    ∀ j < c.entryCount, ¬ (c.entries j).Holds (p, lba) := by
  intro j hj hheld
  have := List.find?_eq_none.mp h j (List.mem_range.mpr hj)
  simp [hheld.1, hheld.2.1, hheld.2.2] at this

/-- What `mcsos_bcache_select_victim` leaves: the cache holds the same blocks, and the victim is
clean. -/
structure Selected (L : Store δ bs) (c : Cache δ bs) (x : Except Err ℕ × Cache δ bs)
    (d' : Store δ bs) : Prop where
  count : x.2.entryCount = c.entryCount
  coherent : Coherent L c.entryCount x.2.entries d'
  holds : ∀ j b, (x.2.entries j).Holds b ↔ (c.entries j).Holds b
  victim : ∀ i, x.1 = .ok i → i < c.entryCount ∧ (x.2.entries i).dirty = false

theorem selectVictim_returns {c : Cache δ bs} (h : Coherent L c.entryCount c.entries d) :
    Returns (Selected L c) (selectVictim devs c) d := by
  unfold selectVictim
  by_cases hzero : c.entryCount = 0
  · rw [if_pos hzero]
    exact Returns.ret ⟨rfl, h, fun _ _ => Iff.rfl, fun i hi => by cases hi⟩
  rw [if_neg hzero]
  have hpos : 0 < c.entryCount := Nat.pos_of_ne_zero hzero
  dsimp only
  cases hpass : (List.range c.entryCount).find? fun pass =>
      !(c.entries (c.victimAt (c.clockHand % c.entryCount % 2 ^ 32) pass)).valid with
  | some pass =>
      refine Returns.ret ⟨rfl, h, fun _ _ => Iff.rfl, ?_⟩
      rintro _ ⟨rfl⟩
      have hlt : c.victimAt (c.clockHand % c.entryCount % 2 ^ 32) pass < c.entryCount :=
        Nat.mod_lt _ hpos
      refine ⟨hlt, ?_⟩
      -- an entry that is not valid is not dirty
      have hinvalid := List.find?_some hpass
      by_contra hdirty
      rw [h.dirty _ hlt (by simpa using hdirty)] at hinvalid
      cases hinvalid
  | none =>
      have hlt : c.clockHand % c.entryCount % 2 ^ 32 < c.entryCount :=
        (Nat.mod_le _ _).trans_lt (Nat.mod_lt _ hpos)
      refine (flushEntry_returns devs (c.entries (c.clockHand % c.entryCount % 2 ^ 32)) d).bind
        fun x d' hf => ?_
      obtain ⟨hcoherent, hclean⟩ := hf.coherent h hlt
      obtain ⟨st, e⟩ := x
      cases st with
      | error st => exact Returns.ret ⟨rfl, hcoherent, hf.holds, fun i hi => by cases hi⟩
      | ok _ =>
          refine Returns.ret ⟨rfl, hcoherent, hf.holds, ?_⟩
          rintro _ ⟨rfl⟩
          refine ⟨hlt, ?_⟩
          dsimp only [Cache.setEntry]
          rw [update_self]
          exact hclean rfl

/-- What a function of the cache leaves: a cache of the same size, coherent with `L`, that holds no
blocks but those it held and those in `N`. -/
structure Keeps {α : Type} (L : Store δ bs) (N : δ × ℕ → Prop) (c : Cache δ bs) (x : α × Cache δ bs)
    (d' : Store δ bs) : Prop where
  count : x.2.entryCount = c.entryCount
  coherent : Coherent L c.entryCount x.2.entries d'
  holds : ∀ j b, (x.2.entries j).Holds b → (c.entries j).Holds b ∨ N b

omit [DecidableEq δ] in
/-- After a change of entry `i`, an entry holds what the new one holds or what it held before. -/
theorem holds_setEntry {c : Cache δ bs} {e : Entry δ bs} {j : ℕ} {b : δ × ℕ}
    (hb : ((c.setEntry i e).entries j).Holds b) : j = i ∧ e.Holds b ∨ (c.entries j).Holds b := by
  dsimp only [Cache.setEntry] at hb
  by_cases hji : j = i
  · rw [hji, update_self] at hb
    exact Or.inl ⟨hji, hb⟩
  · exact Or.inr ((holds_update_of_ne hji).mp hb)

omit [DecidableEq δ] in
theorem keeps_self {α : Type} {N : δ × ℕ → Prop} {c : Cache δ bs}
    (h : Coherent L c.entryCount c.entries d) (st : α) : Keeps L N c (st, c) d :=
  ⟨rfl, h, fun _ _ hb => Or.inl hb⟩

omit [DecidableEq δ] in
/-- A victim that is given up. -/
theorem Selected.keeps {α : Type} {N : δ × ℕ → Prop} {c : Cache δ bs}
    {x : Except Err ℕ × Cache δ bs} (hs : Selected L c x d) (st : α) : Keeps L N c (st, x.2) d :=
  ⟨hs.count, hs.coherent, fun j b hb => Or.inl ((hs.holds j b).mp hb)⟩

/-- A victim that takes another block. -/
theorem Selected.install {α : Type} {N : δ × ℕ → Prop} {c c' : Cache δ bs}
    (hs : Selected L c (.ok i, c') d) {a : δ × ℕ} (hfind : c.find a.1 a.2 = none) (hnew : N a)
    {e : Entry δ bs} (he : e.Holds a) (hdata : e.dirty = false → e.data = d a) (st : α) :
    Keeps (update L a e.data) N c (st, c'.setEntry i e) d := by
  obtain ⟨hi, hclean⟩ := hs.victim i rfl
  have habsent : ∀ j < c.entryCount, ¬ (c'.entries j).Holds a := fun j hj hheld =>
    find_none hfind j hj ((hs.holds j _).mp hheld)
  refine ⟨hs.count, hs.coherent.install hi hclean habsent he hdata, fun j b hb => ?_⟩
  rcases holds_setEntry hb with ⟨-, hself⟩ | hold
  · rw [hself.inj he]
    exact Or.inr hnew
  · exact Or.inl ((hs.holds j b).mp hold)

theorem bcacheRead_returns {c : Cache δ bs} (h : Coherent L c.entryCount c.entries d) (p : δ)
    (lba : ℕ) :
    Returns (fun x d' => Keeps L (fun a => a.2 < (devs a.1).blockCount) c x d' ∧
      ∀ data, x.1 = .ok data → data = L (p, lba)) (bcacheRead devs c p lba) d := by
  unfold bcacheRead
  by_cases hsize : bs ≠ (devs p).blockSize
  · rw [if_pos hsize]
    exact Returns.ret ⟨keeps_self h _, fun data hdata => by cases hdata⟩
  rw [if_neg hsize]
  cases hfind : c.find p lba with
  | some i =>
      obtain ⟨hi, hheld⟩ := find_some hfind
      refine Returns.ret ⟨keeps_self h _, ?_⟩
      rintro _ ⟨rfl⟩
      exact h.latest i hi _ hheld
  | none =>
      refine (selectVictim_returns devs h).bind fun x d' hs => ?_
      obtain ⟨st, c'⟩ := x
      cases st with
      | error st => exact Returns.ret ⟨hs.keeps _, fun data hdata => by cases hdata⟩
      | ok i =>
          obtain ⟨hi, hclean⟩ := hs.victim i rfl
          refine (blkReadOne_ends devs p lba d').attempt.bind fun st d'' hst => ?_
          obtain ⟨rfl, hdata⟩ := hst
          cases st with
          | error st =>
              -- the read has failed: the victim was clean, so giving it up loses nothing
              refine Returns.ret ⟨⟨hs.count, hs.coherent.invalidate hi hclean rfl hclean, ?_⟩,
                fun data hdata => by cases hdata⟩
              intro j b hb
              rcases holds_setEntry hb with ⟨-, hself⟩ | hold
              · exact absurd hself.1 Bool.false_ne_true
              · exact Or.inl ((hs.holds j b).mp hold)
          | ok data =>
              obtain ⟨hvalue, hlba⟩ := hdata data rfl
              have habsent : ∀ j < c.entryCount, ¬ (c'.entries j).Holds (p, lba) :=
                fun j hj hheld =>
                find_none hfind j hj ((hs.holds j _).mp hheld)
              -- no entry holds the block, so the device has its latest data
              have hL : data = L (p, lba) := hvalue.trans (hs.coherent.stored _ habsent)
              have hsame : update L (p, lba) data = L := by rw [hL, update_eq_self]
              have hinstalled :=
                hs.install (a := (p, lba)) (N := fun a => a.2 < (devs a.1).blockCount)
                (e := { data := data, lba := lba, valid := true, dirty := false, dev := some p })
                hfind hlba ⟨rfl, rfl, rfl⟩ (fun _ => hvalue)
                (Except.ok data : Except Err (Bytes bs))
              dsimp only at hinstalled
              rw [hsame] at hinstalled
              refine Returns.ret ⟨hinstalled, ?_⟩
              rintro _ ⟨rfl⟩
              exact hL

/-- The content after a write: changed if it succeeded. -/
def written (L : Store δ bs) (a : δ × ℕ) (buffer : Bytes bs) : Except Err Unit → Store δ bs
  | .ok _ => update L a buffer
  | .error _ => L

theorem bcacheWrite_returns {c : Cache δ bs} (h : Coherent L c.entryCount c.entries d) (p : δ)
    (lba : ℕ) (buffer : Bytes bs) :
    Returns (fun x d' => Keeps (written L (p, lba) buffer x.1) (· = (p, lba)) c x d')
      (bcacheWrite devs c p lba buffer) d := by
  unfold bcacheWrite
  by_cases hsize : bs ≠ (devs p).blockSize
  · rw [if_pos hsize]
    exact Returns.ret (keeps_self h _)
  rw [if_neg hsize]
  cases hfind : c.find p lba with
  | some i =>
      obtain ⟨hi, hheld⟩ := find_some hfind
      refine Returns.ret ⟨rfl, h.overwrite hi hheld buffer, fun j b hb => ?_⟩
      rcases holds_setEntry hb with ⟨rfl, hself⟩ | hold
      · exact Or.inl hself
      · exact Or.inl hold
  | none =>
      refine (selectVictim_returns devs h).bind fun x d' hs => ?_
      obtain ⟨st, c'⟩ := x
      cases st with
      | error st => exact Returns.ret (hs.keeps _)
      | ok i =>
          exact Returns.ret (hs.install (a := (p, lba)) (N := (· = (p, lba)))
            (e := { data := buffer, lba := lba, valid := true, dirty := true, dev := some p })
            hfind rfl ⟨rfl, rfl, rfl⟩ (fun hdirty => absurd hdirty.symm Bool.false_ne_true) _)

/-- Flushing from entry `i` on cleans what is still dirty. -/
theorem flushFrom_returns :
    ∀ {r i : ℕ} {c : Cache δ bs} {d : Store δ bs}, i + r = c.entryCount →
      Coherent L c.entryCount c.entries d →
      Returns (fun x d' => Keeps L (fun _ => False) c x d' ∧
        ((∀ j < i, (c.entries j).dirty = false) → x.1 = .ok () →
          ∀ j < c.entryCount, (x.2.entries j).dirty = false)) (flushFrom devs r i c) d := by
  intro r
  induction r with
  | zero =>
      intro i c d hi h
      exact Returns.ret ⟨keeps_self h _, fun hbefore _ j hj => hbefore j (by omega)⟩
  | succ r ih =>
      intro i c d hi h
      refine (flushEntry_returns devs (c.entries i) d).bind fun x d' hf => ?_
      obtain ⟨hcoherent, hclean⟩ := hf.coherent h (by omega)
      obtain ⟨st, e⟩ := x
      have hkeeps : ∀ j b, ((c.setEntry i e).entries j).Holds b → (c.entries j).Holds b :=
        fun j b hb =>
        (hf.holds j b).mp hb
      cases st with
      | error st =>
          exact Returns.ret ⟨⟨rfl, hcoherent, fun j b hb => Or.inl (hkeeps j b hb)⟩,
            fun _ hok => by cases hok⟩
      | ok _ =>
          have hcount : i + 1 + r = (c.setEntry i e).entryCount := by
            dsimp only [Cache.setEntry]
            omega
          -- entry `i` is clean now, and joins those in front of it
          refine (ih hcount hcoherent).mono fun x d'' hx => ⟨?_, fun hbefore hok => ?_⟩
          · exact ⟨hx.1.count, hx.1.coherent, fun j b hb => (hx.1.holds j b hb).imp_left
              (hkeeps j b)⟩
          · refine hx.2 (fun j hj => ?_) hok
            dsimp only [Cache.setEntry]
            by_cases hji : j = i
            · rw [hji, update_self]
              exact hclean rfl
            · rw [update_of_ne hji]
              exact hbefore j (by omega)

theorem bcacheFlushAll_returns {c : Cache δ bs} (h : Coherent L c.entryCount c.entries d) :
    Returns (fun x d' => Keeps L (fun _ => False) c x d' ∧
      (x.1 = .ok () → ∀ j < c.entryCount, (x.2.entries j).dirty = false))
      (bcacheFlushAll devs c) d :=
  (flushFrom_returns devs (Nat.zero_add _) h).mono fun _ _ hx =>
    ⟨hx.1, hx.2 fun j hj => absurd hj (Nat.not_lt_zero j)⟩

end Functions

/-! ## Runs -/

section Runs

variable {c₀ : Cache δ bs} {d₀ L d : Store δ bs} {n : ℕ} {pool : ℕ → Bytes bs}

theorem bcacheInit_ok (hinit : bcacheInit n pool = .ok c₀) :
    c₀.entryCount = n ∧ 0 < n ∧ ∀ i, (c₀.entries i).valid = false ∧
      (c₀.entries i).dirty = false := by
  unfold bcacheInit at hinit
  split at hinit
  · cases hinit
  · rename_i hpos
    cases hinit
    exact ⟨rfl, by omega, fun _ => ⟨rfl, rfl⟩⟩

theorem not_holds_init (hinit : bcacheInit n pool = .ok c₀) (i : ℕ) (a : δ × ℕ) :
    ¬ (c₀.entries i).Holds a := by
  intro h
  rw [Entry.Holds, ((bcacheInit_ok hinit).2.2 i).1] at h
  exact absurd h.1 Bool.false_ne_true

theorem coherent_init (hinit : bcacheInit n pool = .ok c₀) :
    Coherent d₀ c₀.entryCount c₀.entries d₀ := by
  obtain ⟨_, _, hinvalid⟩ := bcacheInit_ok hinit
  have hempty := not_holds_init hinit
  refine ⟨fun i _ h => ?_, fun i _ j _ a h => absurd h (hempty i a), fun i _ h => ?_,
    fun i _ a h => absurd h (hempty i a), fun i _ a h => absurd h (hempty i a), fun a _ => rfl⟩
  · rw [(hinvalid i).1] at h
    exact absurd h Bool.false_ne_true
  · rw [(hinvalid i).2] at h
    exact absurd h Bool.false_ne_true

theorem Keeps.next {α : Type} {N : δ × ℕ → Prop} {c : Cache δ bs} {x : α × Cache δ bs}
    (hk : Keeps L N c x d) (hcount : c.entryCount = n) :
    x.2.entryCount = n ∧ Coherent L x.2.entryCount x.2.entries d := by
  rw [hk.count]
  exact ⟨hcount, hk.coherent⟩

variable [DecidableEq δ] (devs : δ → Device)

/-- The states reached from a fresh cache over devices that hold `d₀`, by calls whose device
requests may fail.  `L` is at each address the data of the last write to it that succeeded, or
`d₀`. -/
inductive Reached (c₀ : Cache δ bs) (d₀ : Store δ bs) :
    (L : Store δ bs) → Cache δ bs → Store δ bs → Prop
  | start : Reached c₀ d₀ d₀ c₀ d₀
  | read {L d d'} {c c' : Cache δ bs} {res : Except Err (Bytes bs)} (p : δ) (lba : ℕ)
      (h : Reached c₀ d₀ L c d) (hexec : Exec (bcacheRead devs c p lba) d (.ok (res, c')) d') :
      Reached c₀ d₀ L c' d'
  | write {L d d'} {c c' : Cache δ bs} (p : δ) (lba : ℕ) (buffer : Bytes bs)
      (h : Reached c₀ d₀ L c d)
      (hexec : Exec (bcacheWrite devs c p lba buffer) d (.ok (.ok (), c')) d') :
      Reached c₀ d₀ (update L (p, lba) buffer) c' d'
  | writeError {L d d'} {c c' : Cache δ bs} {st : Err} (p : δ) (lba : ℕ) (buffer : Bytes bs)
      (h : Reached c₀ d₀ L c d)
      (hexec : Exec (bcacheWrite devs c p lba buffer) d (.ok (.error st, c')) d') :
      Reached c₀ d₀ L c' d'
  | flushAll {L d d'} {c c' : Cache δ bs} {res : Except Err Unit} (h : Reached c₀ d₀ L c d)
      (hexec : Exec (bcacheFlushAll devs c) d (.ok (res, c')) d') : Reached c₀ d₀ L c' d'

variable {devs} {c : Cache δ bs}

theorem Reached.coherent (hinit : bcacheInit n pool = .ok c₀) (h : Reached devs c₀ d₀ L c d) :
    c.entryCount = n ∧ Coherent L c.entryCount c.entries d := by
  induction h with
  | start => exact ⟨(bcacheInit_ok hinit).1, coherent_init hinit⟩
  | read p lba _ hexec ih =>
      obtain ⟨_, ⟨rfl⟩, hk, _⟩ := (bcacheRead_returns devs ih.2 p lba).exec hexec
      exact hk.next ih.1
  | write p lba buffer _ hexec ih =>
      obtain ⟨_, ⟨rfl⟩, hk⟩ := (bcacheWrite_returns devs ih.2 p lba buffer).exec hexec
      exact hk.next ih.1
  | writeError p lba buffer _ hexec ih =>
      obtain ⟨_, ⟨rfl⟩, hk⟩ := (bcacheWrite_returns devs ih.2 p lba buffer).exec hexec
      exact hk.next ih.1
  | flushAll _ hexec ih =>
      obtain ⟨_, ⟨rfl⟩, hk, _⟩ := (bcacheFlushAll_returns devs ih.2).exec hexec
      exact hk.next ih.1

/-- **Coherence.**  In every state reached, whatever device requests failed: no block has two valid
copies; only valid entries are dirty; valid clean entries equal the device block; a read that
succeeds returns the data of the last write that succeeded, or what the device held at the start;
and that data is in the cache or on the device. -/
theorem cache_coherent (hinit : bcacheInit n pool = .ok c₀) (h : Reached devs c₀ d₀ L c d) :
    (∀ i < n, ∀ j < n, (c.entries i).valid = true → (c.entries j).valid = true →
        (c.entries i).dev = (c.entries j).dev → (c.entries i).lba = (c.entries j).lba → i = j) ∧
      (∀ i < n, (c.entries i).dirty = true → (c.entries i).valid = true) ∧
      (∀ i < n, (c.entries i).valid = true → (c.entries i).dirty = false →
        ∃ p, (c.entries i).dev = some p ∧ (c.entries i).data = d (p, (c.entries i).lba)) ∧
      (∀ p lba data c' d', Exec (bcacheRead devs c p lba) d (.ok (.ok data, c')) d' →
        data = L (p, lba)) ∧
      ∀ a, (∃ i < n, (c.entries i).Holds a ∧ (c.entries i).data = L a) ∨ d a = L a := by
  obtain ⟨hcount, hc⟩ := h.coherent hinit
  subst hcount
  refine ⟨?_, hc.dirty, ?_, ?_, ?_⟩
  · intro i hi j hj hvi hvj hdev hlba
    obtain ⟨a, ha⟩ := hc.bound i hi hvi
    exact hc.unique i hi j hj a ha ⟨hvj, hdev ▸ ha.2.1, hlba ▸ ha.2.2⟩
  · intro i hi hvalid hclean
    obtain ⟨⟨p, lba⟩, ha⟩ := hc.bound i hi hvalid
    refine ⟨p, ha.2.1, ?_⟩
    rw [hc.clean i hi _ ha hclean, ha.2.2]
  · intro p lba data c' d' hexec
    obtain ⟨_, ⟨rfl⟩, _, hdata⟩ := (bcacheRead_returns devs hc p lba).exec hexec
    exact hdata data rfl
  · intro a
    by_cases hheld : ∃ i < c.entryCount, (c.entries i).Holds a
    · obtain ⟨i, hi, ha⟩ := hheld
      exact Or.inl ⟨i, hi, ha, hc.latest i hi a ha⟩
    · exact Or.inr (hc.stored a fun i hi ha => hheld ⟨i, hi, ha⟩)

theorem cache_coherent_after_write :
    ∃ (c₀ c : Cache Unit 512) (d : Store Unit 512),
      bcacheInit 2 (fun _ => Bytes.zero) = .ok c₀ ∧
      run (bcacheWrite (fun _ => ⟨512, 4⟩) c₀ () 3 (Bytes.ofFn fun _ => 7)) (fun _ => Bytes.zero) =
        (.ok (.ok (), c), d) ∧
      ∀ data c' d', Exec (bcacheRead (fun _ => ⟨512, 4⟩) c () 3) d (.ok (.ok data, c')) d' →
        data = Bytes.ofFn fun _ => 7 := by
  obtain ⟨c₀, hinit⟩ : ∃ c₀ : Cache Unit 512, bcacheInit 2 (fun _ => Bytes.zero) = .ok c₀ :=
    ⟨_, rfl⟩
  obtain ⟨c, d, hrun⟩ : ∃ (c : Cache Unit 512) (d : Store Unit 512),
      run (bcacheWrite (fun _ => ⟨512, 4⟩) c₀ () 3 (Bytes.ofFn fun _ => 7)) (fun _ => Bytes.zero) =
        (.ok (.ok (), c), d) := by
    cases hinit
    exact ⟨_, _, rfl⟩
  refine ⟨c₀, c, d, hinit, hrun, ?_⟩
  intro data c' d' hexec
  have hreached := Reached.write () 3 (Bytes.ofFn fun _ => 7) Reached.start (exec_of_run hrun)
  rw [(cache_coherent hinit hreached).2.2.2.1 () 3 data c' d' hexec, update_self]

end Runs

end Mcsos.Block
