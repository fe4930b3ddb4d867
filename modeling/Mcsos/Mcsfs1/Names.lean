import Mcsos.Mcsfs1.Runs

/-!
# Names of the maximal length

A name of 27 bytes fills its field, so the length scan of `find_dirent` goes on to the first byte of
the next entry, or behind the block.  The entry is found as long as that byte is zero, that is, as
long as the next slot exists and is empty.  `Dir.Clear` says so of all entries, and `Op.Clears` of
the entry that a call is about to write; lookups are right all along a run just when every call that
creates a file meets it (`lookups_ok_iff`).
-/

namespace Mcsos.Mcsfs1

open Bytes Function Prog

/-! ## What the comparison looks at -/

/-- The bytes of `s` that `mcsfs_strlen_bound` inspects. -/
def strlenReads (s : ℕ → UInt8) (maxPlusOne : ℕ) : List ℕ :=
  (List.range maxPlusOne).filter fun i => (List.range i).all fun j => s j != 0

/-- The bytes of `a` that `mcsfs_memcmp` inspects. -/
def memcmpReads (a b : ℕ → UInt8) (n : ℕ) : List ℕ :=
  (List.range n).filter fun i => (List.range i).all fun j => a j == b j

/-- The offsets in the directory block that the comparison with entry `i` inspects. -/
def direntReads (beyond : UInt8) (dir : Block) (name : CStr) (nameLen i : ℕ) : List ℕ :=
  if direntIno dir i = 0 then []
  else
    let field := direntName beyond dir i
    (strlenReads field (maxName + 1) ++
      if strlenBound field (maxName + 1) = nameLen then memcmpReads field name.char nameLen
        else []).map
      fun j => 32 * i + 5 + j

/-- The offsets that `find_dirent` inspects, up to the entry it takes. -/
def findReads (beyond : UInt8) (dir : Block) (name : CStr) (nameLen : ℕ) : List ℕ :=
  ((List.range direntCount).filter fun i =>
    (List.range i).all fun j => !direntMatches beyond dir name nameLen j).flatMap
    (direntReads beyond dir name nameLen)

/-! ## Entries of the maximal length -/

/-- Every entry with a name of the maximal length has an empty slot behind it. -/
def Dir.Clear (dir : Dir) : Prop :=
  ∀ s, dir.Live s → (dir s).name.length = maxName → s + 1 < direntCount ∧ ¬ dir.Live (s + 1)

/-- A new entry in slot `s` keeps it so: an empty slot is behind it if its name has the maximal
length, and no such name is in front of it. -/
def Dir.ClearFor (dir : Dir) (s : ℕ) (name : CStr) : Prop :=
  (name.length = maxName → s + 1 < direntCount ∧ ¬ dir.Live (s + 1)) ∧
    ∀ t, t + 1 = s → dir.Live t → (dir t).name.length ≠ maxName

/-- A call that creates a file finds a clear place for it. -/
def Op.Clears (n : ℕ) : Op → View → Prop
  | .create beyond name, v =>
      ValidName name → v.ent.find beyond name = none → (v.spare n).isSome →
        ∀ s, v.ent.freeSlot = some s → v.ent.ClearFor s name
  | _, _ => True

section Dir

variable {dir : Dir} {name : CStr} {s : ℕ}

/-- The first byte of an entry is zero just when the slot is empty. -/
theorem byte_zero_iff_not_live (hs : s < direntCount) (hino : dir.ino s ≤ maxInodes) :
    (dir s).byte 0 = 0 ↔ ¬ dir.Live s := by
  have hmod : (dir s).ino % 256 = ((dir s).byte 0).toNat := word_mod_256 _ (by decide)
  have hsmall : (dir s).ino % 256 = (dir s).ino := Nat.mod_eq_of_lt (hino.trans_lt (by decide))
  rw [hsmall] at hmod
  unfold Dir.Live
  rw [hmod, ← UInt8.toNat_inj]
  simp [hs]

theorem nextByte_of_clear (hclear : dir.Clear) (hino : ∀ t, dir.Live t → dir.ino t ≤ maxInodes)
    (beyond : UInt8) (hs : dir.Live s) (hlong : (dir s).name.length = maxName) :
    dir.nextByte beyond s = 0 := by
  obtain ⟨hnext, hempty⟩ := hclear s hs hlong
  have hzero : dir.ino (s + 1) ≤ maxInodes := by
    by_cases hlive : dir.Live (s + 1)
    · exact hino _ hlive
    · have : dir.ino (s + 1) = 0 := by
        by_contra hne
        exact hlive ⟨hnext, hne⟩
      rw [this]
      exact Nat.zero_le _
  rw [Dir.nextByte, if_pos hnext]
  exact (byte_zero_iff_not_live hnext hzero).mpr hempty

/-- The lookup is exact in a clear directory. -/
theorem find_of_clear (hclear : dir.Clear) (hino : ∀ t, dir.Live t → dir.ino t ≤ maxInodes)
    (beyond : UInt8) (name : CStr) : dir.find beyond name = dir.slotOf name := by
  apply List.find?_congr
  intro t _
  have hmatches : dir.Matches beyond name t ↔ dir.Live t ∧ (dir t).name = name := by
    refine ⟨fun h => ⟨h.1, h.2.1⟩, fun h => ⟨h.1, h.2, fun hlong => ?_⟩⟩
    exact nextByte_of_clear hclear hino beyond h.1 (h.2 ▸ hlong)
  exact decide_eq_decide.mpr hmatches

/-- Conversely, an entry that is found whatever follows the block has an empty slot behind it. -/
theorem clear_of_matches (hino : ∀ t, dir.Live t → dir.ino t ≤ maxInodes)
    (hlong : (dir s).name.length = maxName)
    (hfound : ∀ beyond, dir.Matches beyond (dir s).name s) :
    s + 1 < direntCount ∧ ¬ dir.Live (s + 1) := by
  have hbyte := fun beyond => (hfound beyond).2.2 hlong
  by_cases hnext : s + 1 < direntCount
  · refine ⟨hnext, fun hlive => ?_⟩
    have h0 := hbyte 0
    rw [Dir.nextByte, if_pos hnext, byte_zero_iff_not_live hnext (hino _ hlive)] at h0
    exact h0 hlive
  · have h1 := hbyte 1
    rw [Dir.nextByte, if_neg hnext] at h1
    exact absurd h1 (by decide)

/-- An entry behind it hides a name of the maximal length. -/
theorem find_of_next_live (hdistinct : dir.NamesDistinct) (hs : dir.Live s)
    (hlong : (dir s).name.length = maxName) (hnext : dir.Live (s + 1))
    (hino : dir.ino (s + 1) ≤ maxInodes) (beyond : UInt8) :
    dir.find beyond (dir s).name = none := by
  cases hfind : dir.find beyond (dir s).name with
  | none => rfl
  | some t =>
      obtain ⟨ht, htname, hbyte⟩ := Dir.find_some hfind
      obtain rfl : t = s := hdistinct t s ht hs htname
      have hzero := hbyte hlong
      rw [Dir.nextByte, if_pos hnext.1, byte_zero_iff_not_live hnext.1 hino] at hzero
      exact absurd hnext hzero

theorem clear_link_iff {e : Entry} (hclear : dir.Clear) (hs : s < direntCount)
    (hunused : ¬ dir.Live s) (he : e.ino ≠ 0) :
    Dir.Clear (update dir s e) ↔ dir.ClearFor s e.name := by
  have hself : (update dir s e s).name = e.name := by rw [update_self]
  constructor
  · intro h
    refine ⟨fun hlong => ?_, fun t ht hlive hlong => ?_⟩
    · obtain ⟨hnext, hempty⟩ := h s (live_update_self hs he) (hself ▸ hlong)
      rw [live_update_of_ne (Nat.succ_ne_self s)] at hempty
      exact ⟨hnext, hempty⟩
    · have hts : t ≠ s := by omega
      have hlive' : Dir.Live (update dir s e) t := (live_update_of_ne hts).mpr hlive
      obtain ⟨_, hempty⟩ := h t hlive' ((congrArg CStr.length (name_update_of_ne hts)).trans hlong)
      rw [ht] at hempty
      exact hempty (live_update_self hs he)
  · rintro ⟨hnew, hbefore⟩ t ht hlong
    by_cases hts : t = s
    · subst hts
      rw [hself] at hlong
      obtain ⟨hnext, hempty⟩ := hnew hlong
      exact ⟨hnext, fun h => hempty ((live_update_of_ne (Nat.succ_ne_self t)).mp h)⟩
    · rw [name_update_of_ne hts] at hlong
      have hlive := (live_update_of_ne hts).mp ht
      obtain ⟨hnext, hempty⟩ := hclear t hlive hlong
      have hne : t + 1 ≠ s := fun heq => hbefore t heq hlive hlong
      exact ⟨hnext, fun h => hempty ((live_update_of_ne hne).mp h)⟩

theorem clear_drop (hclear : dir.Clear) (s : ℕ) : Dir.Clear (update dir s zero) := by
  intro t ht hlong
  obtain ⟨hlive, hts⟩ := live_update_zero.mp ht
  rw [name_update_of_ne hts] at hlong
  obtain ⟨hnext, hempty⟩ := hclear t hlive hlong
  exact ⟨hnext, fun h => hempty (live_update_zero.mp h).1⟩

end Dir

/-! ## Right lookups -/

/-- Lookups are right on the disk `d`, where `held` are the names created and not removed since:
each of them is found, with the inode of its entry, and so no call takes it for absent; no two
entries have the same name; and no lookup looks behind the directory block. -/
structure LookupsOk (mnt : Mount) (held : Set CStr) (d : Disk) : Prop where
  found : ∀ name ∈ held, ∀ beyond, ∃ s, (view d).ent.Live s ∧ ((view d).ent s).name = name ∧
    (run (findDirent beyond mnt.dev name) d).1 = .ok (s, (view d).ent.ino s)
  exist : ∀ name ∈ held, ∀ beyond, (run (create beyond mnt name) d).1 = .error .exist
  read : ∀ name ∈ held, ∀ beyond cap, (run (read beyond mnt name cap) d).1 ≠ .error .noent
  write : ∀ name ∈ held, ∀ beyond data, (run (write beyond mnt name data) d).1 ≠ .error .noent
  unlink : ∀ name ∈ held, ∀ beyond, (run (unlink beyond mnt name) d).1 ≠ .error .noent
  distinct : (view d).ent.NamesDistinct
  inside :
    ∀ name, ValidName name → ∀ beyond, ∀ o ∈ findReads beyond (d rootDirLba) name name.length,
    o < blockSize

/-- Every entry has a valid name that was created and not removed since. -/
structure Recorded (held : Set CStr) (dir : Dir) : Prop where
  valid : ∀ s, dir.Live s → ValidName (dir s).name
  mem : ∀ s, dir.Live s → (dir s).name ∈ held

/-- What makes lookups right. -/
structure Searchable (held : Set CStr) (dir : Dir) : Prop where
  live : ∀ name ∈ held, ∃ s, dir.Live s ∧ (dir s).name = name
  distinct : dir.NamesDistinct
  clear : dir.Clear

section Lookups

variable {mnt : Mount} {held : Set CStr} {d : Disk}

theorem MetaOk.ino_le {n : ℕ} {v : View} (hm : MetaOk n v) (s : ℕ) (hs : v.ent.Live s) :
    v.ent.ino s ≤ maxInodes := (hm.ino s hs).2.1

/-- The comparison inspects the byte behind a name field only for a name of the maximal length. -/
theorem findReads_lt (hclear : (view d).ent.Clear) {name : CStr} (hname : ValidName name)
    (beyond : UInt8) :
    ∀ o ∈ findReads beyond (d rootDirLba) name name.length, o < blockSize := by
  intro o ho
  obtain ⟨i, hi, ho⟩ := List.mem_flatMap.mp ho
  have hi16 := List.mem_range.mp (List.mem_filter.mp hi).1
  simp only [direntCount] at hi16
  unfold direntReads at ho
  by_cases hino : direntIno (d rootDirLba) i = 0
  · rw [if_pos hino] at ho
    exact absurd ho List.not_mem_nil
  rw [if_neg hino] at ho
  obtain ⟨j, hj, rfl⟩ := List.mem_map.mp ho
  have hshort : j < maxName → 32 * i + 5 + j < blockSize := by
    simp only [maxName, blockSize]
    omega
  rcases List.mem_append.mp hj with hj | hj
  · obtain ⟨hj28, hbefore⟩ := List.mem_filter.mp hj
    have hj28 := List.mem_range.mp hj28
    by_cases hj27 : j < maxName
    · exact hshort hj27
    -- the scan reaches offset 27 only behind 27 bytes of a name
    have hlive : (view d).ent.Live i := ⟨hi16, fun h0 => hino ((direntIno_eq d i).trans h0)⟩
    have hlong : ((view d).ent i).name.length = maxName := by
      rw [Entry.name, CStr.length_ofMem, scanLen_eq_iff _ (Nat.le_refl _)]
      refine ⟨fun k hk => ?_, fun h => absurd h (Nat.lt_irrefl _)⟩
      have hk' := List.all_eq_true.mp hbefore k (List.mem_range.mpr (by omega))
      rw [direntName_eq hi16 hk.le, if_pos hk] at hk'
      exact bne_iff_ne.mp hk'
    have hnext := (hclear i hlive hlong).1
    simp only [direntCount, maxName, blockSize] at *
    omega
  · split at hj
    · have hjlen := List.mem_range.mp (List.mem_filter.mp hj).1
      exact hshort (hjlen.trans_le hname.2)
    · exact absurd hj List.not_mem_nil

theorem Searchable.search {n : ℕ} {v : View} (hm : MetaOk n v) (hr : Recorded held v.ent)
    (h : Searchable held v.ent) {name : CStr} (hname : name ∈ held) (beyond : UInt8) :
    ∃ s, v.ent.Live s ∧ (v.ent s).name = name ∧ v.ent.find beyond name = some s ∧
      ValidName name ∧ v.search beyond name = .ok (s, v.ent.ino s) := by
  obtain ⟨s, hs, hsname⟩ := h.live name hname
  have hfind : v.ent.find beyond name = some s := by
    rw [find_of_clear h.clear hm.ino_le, slotOf_eq_some h.distinct hs hsname]
  have hvalid : ValidName name := hsname ▸ hr.valid s hs
  refine ⟨s, hs, hsname, hfind, hvalid, ?_⟩
  rw [View.search, if_pos hvalid, hfind]

theorem lookupsOk_of_searchable (hm : MetaOk mnt.dev.blockCount (view d))
    (hr : Recorded held (view d).ent) (h : Searchable held (view d).ent) :
    LookupsOk mnt held d := by
  constructor
  · intro name hname beyond
    obtain ⟨s, hs, hsname, _, _, hsearch⟩ := h.search hm hr hname beyond
    exact ⟨s, hs, hsname, (runs_findDirent beyond name hm).1.trans hsearch⟩
  · intro name hname beyond
    obtain ⟨s, _, _, hfind, hvalid, _⟩ := h.search hm hr hname beyond
    rw [(runs_create beyond name hm).1, View.create, if_neg (not_not.mpr hvalid), hfind,
      if_pos (by rfl : (some s).isSome = true)]
  · intro name hname beyond cap
    obtain ⟨s, _, _, _, _, hsearch⟩ := h.search hm hr hname beyond
    rw [(runs_read beyond name cap hm).1, View.read, hsearch]
    dsimp only
    split <;> simp
  · intro name hname beyond data
    obtain ⟨s, _, _, _, _, hsearch⟩ := h.search hm hr hname beyond
    rw [(runs_write beyond name data hm).1, View.write, hsearch]
    split
    · simp
    · dsimp only
      unfold View.put
      split <;> simp
  · intro name hname beyond
    obtain ⟨s, _, _, _, _, hsearch⟩ := h.search hm hr hname beyond
    rw [(runs_unlink beyond name hm).1, View.unlink, hsearch]
    simp
  · exact h.distinct
  · exact fun name hname beyond => findReads_lt h.clear hname beyond

theorem LookupsOk.searchable (hm : MetaOk mnt.dev.blockCount (view d))
    (hr : Recorded held (view d).ent) (h : LookupsOk mnt held d) :
    Searchable held (view d).ent := by
  refine ⟨fun name hname => ?_, h.distinct, fun s hs hlong => ?_⟩
  · obtain ⟨s, hs, hsname, _⟩ := h.found name hname 0
    exact ⟨s, hs, hsname⟩
  · refine clear_of_matches hm.ino_le hlong fun beyond => ?_
    obtain ⟨t, ht, htname, hrun⟩ := h.found _ (hr.mem s hs) beyond
    rw [(runs_findDirent beyond _ hm).1] at hrun
    obtain ⟨_, hfind, _⟩ := search_ok hrun
    rw [← h.distinct t s ht hs htname] at hfind ⊢
    exact Dir.find_some hfind

end Lookups

/-! ## One step -/

/-- The names created and not removed since, after a call with a given result. -/
def Op.note : Op → Except Err Unit → Set CStr → Set CStr
  | .create _ name, .ok _, held => insert name held
  | .unlink _ name, .ok _, held => held \ {name}
  | _, _, held => held

section Step

variable {n : ℕ} {v : View} {held : Set CStr} {s : ℕ} {name : CStr}

theorem note_write (beyond : UInt8) (name : CStr) (data : List UInt8) (r : Except Err Unit)
    (held : Set CStr) : (Op.write beyond name data).note r held = held := by
  cases r <;> rfl

theorem ent_write (beyond : UInt8) (name : CStr) (data : List UInt8) (v : View) :
    (v.write n beyond name data).2.ent = v.ent := by
  unfold View.write View.put
  split
  · rfl
  · split
    · rfl
    · split <;> rfl

theorem recorded_link (hr : Recorded held v.ent) (hname : ValidName name) (ino b : ℕ) :
    Recorded (insert name held) (v.link s ino b name).ent := by
  have hentry : Entry.name (dirent ino name name.length) = name := dirent_name ino hname.2
  have hself : (update v.ent s (dirent ino name name.length) s).name = name := by
    rw [update_self, hentry]
  constructor
  · intro t ht
    dsimp only [View.link] at ht ⊢
    by_cases hts : t = s
    · rw [hts, hself]
      exact hname
    · rw [name_update_of_ne hts]
      exact hr.valid t ((live_update_of_ne hts).mp ht)
  · intro t ht
    dsimp only [View.link] at ht ⊢
    by_cases hts : t = s
    · rw [hts, hself]
      exact Set.mem_insert name held
    · rw [name_update_of_ne hts]
      exact Set.mem_insert_of_mem name (hr.mem t ((live_update_of_ne hts).mp ht))

theorem searchable_link_iff (h : Searchable held v.ent) (hname : ValidName name)
    (hnew : v.ent.slotOf name = none) {ino b : ℕ} (hspare : v.spare n = some (ino, b))
    (hslot : v.ent.freeSlot = some s) :
    Searchable (insert name held) (v.link s ino b name).ent ↔ v.ent.ClearFor s name := by
  obtain ⟨⟨hlow, hhigh, _⟩, _⟩ := spare_some hspare
  obtain ⟨hs, hunused⟩ := freeSlot_some hslot
  have hino : Entry.ino (dirent ino name name.length) ≠ 0 := by
    rw [dirent_ino name (hhigh.trans_lt (by decide))]
    omega
  have hentry : Entry.name (dirent ino name name.length) = name := dirent_name ino hname.2
  have hclear := clear_link_iff h.clear hs hunused hino
  rw [hentry] at hclear
  refine ⟨fun h' => hclear.mp h'.clear, fun hfor => ⟨?_, ?_, hclear.mpr hfor⟩⟩
  · rintro other (rfl | hother)
    · exact ⟨s, live_update_self hs hino, by dsimp only [View.link]; rw [update_self, hentry]⟩
    · obtain ⟨t, ht, htname⟩ := h.live other hother
      have hts : t ≠ s := by
        rintro rfl
        exact hunused ht
      exact ⟨t, (live_update_of_ne hts).mpr ht, (name_update_of_ne hts).trans htname⟩
  · exact (slotOf_link h.distinct hs hunused hino (by rw [hentry]; exact hnew)).1

theorem recorded_drop (hr : Recorded held v.ent) (hdistinct : v.ent.NamesDistinct)
    (hs : v.ent.Live s) (hname : (v.ent s).name = name) :
    Recorded (held \ {name}) (v.drop n s).ent := by
  constructor
  · intro t ht
    obtain ⟨ht, hts⟩ := live_update_zero.mp ht
    dsimp only [View.drop]
    rw [name_update_of_ne hts]
    exact hr.valid t ht
  · intro t ht
    obtain ⟨ht, hts⟩ := live_update_zero.mp ht
    dsimp only [View.drop]
    rw [name_update_of_ne hts]
    exact ⟨hr.mem t ht, fun heq => hts (hdistinct t s ht hs (heq.trans hname.symm))⟩

theorem searchable_drop (h : Searchable held v.ent) (hs : v.ent.Live s)
    (hname : (v.ent s).name = name) : Searchable (held \ {name}) (v.drop n s).ent := by
  refine ⟨fun other hother => ?_, (slotOf_drop h.distinct hs).1, clear_drop h.clear s⟩
  obtain ⟨t, ht, htname⟩ := h.live other hother.1
  have hts : t ≠ s := by
    rintro rfl
    exact hother.2 (htname.symm.trans hname)
  exact ⟨t, live_update_zero.mpr ⟨ht, hts⟩, (name_update_of_ne hts).trans htname⟩

theorem names_unlink (hr : Recorded held v.ent) (h : Searchable held v.ent) (beyond : UInt8)
    (name : CStr) :
    Recorded ((Op.unlink beyond name).note ((Op.unlink beyond name).apply n v).1 held)
        ((Op.unlink beyond name).apply n v).2.ent ∧
      Searchable ((Op.unlink beyond name).note ((Op.unlink beyond name).apply n v).1 held)
        ((Op.unlink beyond name).apply n v).2.ent := by
  dsimp only [Op.apply]
  unfold View.unlink
  cases hsearch : v.search beyond name with
  | error e => exact ⟨hr, h⟩
  | ok x =>
      obtain ⟨s, ino⟩ := x
      obtain ⟨_, hfind, hs, _⟩ := search_ok hsearch
      have hname := (Dir.find_some hfind).2.1
      exact ⟨recorded_drop hr h.distinct hs hname, searchable_drop h hs hname⟩

theorem names_create (hm : MetaOk n v) (hr : Recorded held v.ent) (h : Searchable held v.ent)
    (beyond : UInt8) (name : CStr) :
    Recorded ((Op.create beyond name).note ((Op.create beyond name).apply n v).1 held)
        ((Op.create beyond name).apply n v).2.ent ∧
      (Searchable ((Op.create beyond name).note ((Op.create beyond name).apply n v).1 held)
        ((Op.create beyond name).apply n v).2.ent ↔ (Op.create beyond name).Clears n v) := by
  have hkept : ∀ {e : Err}, (Op.create beyond name).Clears n v →
      Recorded ((Op.create beyond name).note (.error e) held) v.ent ∧
        (Searchable ((Op.create beyond name).note (.error e) held) v.ent ↔
          (Op.create beyond name).Clears n v) := fun hc => ⟨hr, fun _ => hc, fun _ => h⟩
  dsimp only [Op.apply]
  unfold View.create View.createNew
  by_cases hvalid : ValidName name
  swap
  · rw [if_pos hvalid]
    exact hkept fun hv => absurd hv hvalid
  rw [if_neg (not_not.mpr hvalid)]
  cases hfind : v.ent.find beyond name with
  | some s =>
      rw [if_pos (by rfl : (some s).isSome = true)]
      refine hkept fun _ hnone => ?_
      rw [hfind] at hnone
      cases hnone
  | none =>
      rw [if_neg (by simp)]
      cases hslot : v.ent.freeSlot with
      | none =>
          refine hkept fun _ _ _ s hs => ?_
          rw [hslot] at hs
          cases hs
      | some s =>
          cases hspare : v.spare n with
          | none =>
              refine hkept fun _ _ hsome => ?_
              rw [hspare] at hsome
              cases hsome
          | some x =>
              have hnew : v.ent.slotOf name = none := by
                rw [← find_of_clear h.clear hm.ino_le beyond, hfind]
              refine ⟨recorded_link hr hvalid x.1 x.2, ?_⟩
              refine (searchable_link_iff h hvalid hnew hspare hslot).trans ?_
              constructor
              · intro hfor _ _ _ t ht
                rw [hslot] at ht
                cases ht
                exact hfor
              · intro hc
                exact hc hvalid hfind (by rw [hspare]; rfl) s hslot

/-- What a call makes of the names. -/
theorem names_apply (hm : MetaOk n v) (hr : Recorded held v.ent)
    (h : Searchable held v.ent) (o : Op) :
    Recorded (o.note (o.apply n v).1 held) (o.apply n v).2.ent ∧
      (Searchable (o.note (o.apply n v).1 held) (o.apply n v).2.ent ↔ o.Clears n v) := by
  cases o with
  | write beyond name data =>
      dsimp only [Op.apply]
      rw [note_write, ent_write]
      exact ⟨hr, fun _ => trivial, fun _ => h⟩
  | unlink beyond name =>
      obtain ⟨hrecorded, hsearchable⟩ := names_unlink hr h beyond name
      exact ⟨hrecorded, fun _ => trivial, fun _ => hsearchable⟩
  | create beyond name => exact names_create hm hr h beyond name

end Step

/-! ## Runs -/

/-- A call on a healthy device, with the names created and not removed since. -/
def Op.track (mnt : Mount) (o : Op) (x : Set CStr × Disk) : Set CStr × Disk :=
  (o.note (run (o.prog mnt) x.2).1 x.1, o.step mnt x.2)

/-- **Lookups.**  On a healthy device, along any run from a format, lookups are right just when
every call that creates a file finds a clear place for it: an empty slot behind the new entry if its
name has 27 bytes, and no name of 27 bytes in front of it. -/
theorem lookups_ok_iff (mnt : Mount) {d d₁ : Disk} (hformat : run (format mnt.dev) d = (.ok (), d₁))
    (ops : List Op) :
    AllStates (Op.track mnt) (fun x => LookupsOk mnt x.1 x.2) ops (∅, d₁) ↔
      AllSteps (Op.track mnt) (fun o x => o.Clears mnt.dev.blockCount (view x.2)) ops (∅, d₁) := by
  have hformatted := format_formatted hformat
  have hrecorded : Recorded ∅ (view d₁).ent :=
    ⟨fun s hs => absurd hs (hformatted.not_live s), fun s hs => absurd hs (hformatted.not_live s)⟩
  have hsearchable : Searchable ∅ (view d₁).ent :=
    ⟨fun _ hname => absurd hname (Set.notMem_empty _), fun s _ hs => absurd hs
      (hformatted.not_live s), fun s hs => absurd hs (hformatted.not_live s)⟩
  -- a step in terms of the tables
  have hstep : ∀ (o : Op) (x : Set CStr × Disk), MetaOk mnt.dev.blockCount (view x.2) →
      (o.track mnt x).1 = o.note (o.apply mnt.dev.blockCount (view x.2)).1 x.1 ∧
        view (o.track mnt x).2 = (o.apply mnt.dev.blockCount (view x.2)).2 := fun o x hm =>
    ⟨congrArg (o.note · x.1) (o.runs hm).1, view_step o hm⟩
  constructor
  · apply AllStates.steps (I := fun x => MetaOk mnt.dev.blockCount (view x.2) ∧
      Recorded x.1 (view x.2).ent)
    · rintro o x ⟨hm, hr⟩ h h'
      obtain ⟨hnote, hview⟩ := hstep o x hm
      obtain ⟨hr', hiff⟩ := names_apply hm hr (h.searchable hm hr) o
      rw [← hnote, ← hview] at hr' hiff
      exact hiff.mp (h'.searchable (metaOk_step o hm) hr')
    · rintro o x ⟨hm, hr⟩ h
      obtain ⟨hnote, hview⟩ := hstep o x hm
      have hr' := (names_apply hm hr (h.searchable hm hr) o).1
      rw [← hnote, ← hview] at hr'
      exact ⟨metaOk_step o hm, hr'⟩
    · exact ⟨hformatted.ok, hrecorded⟩
  · intro hsteps
    have hrun := AllSteps.invariant (I := fun x => MetaOk mnt.dev.blockCount (view x.2) ∧
      Recorded x.1 (view x.2).ent ∧ Searchable x.1 (view x.2).ent) (fun o x h hclears => ?_)
      ⟨hformatted.ok, hrecorded, hsearchable⟩ hsteps
    · exact hrun.mono fun x h => lookupsOk_of_searchable h.1 h.2.1 h.2.2
    · obtain ⟨hm, hr, hs⟩ := h
      obtain ⟨hnote, hview⟩ := hstep o x hm
      obtain ⟨hr', hiff⟩ := names_apply hm hr hs o
      rw [← hnote, ← hview] at hr' hiff
      exact ⟨metaOk_step o hm, hr', hiff.mpr hclears⟩

theorem lookups_ok_iff_one_file :
    AllStates (Op.track ⟨⟨16⟩, 16, 8⟩) (fun x => LookupsOk ⟨⟨16⟩, 16, 8⟩ x.1 x.2)
      [.create 0 ⟨List.replicate 27 97, by decide⟩, .unlink 0 ⟨List.replicate 27 97, by decide⟩]
      (∅, (run (format ⟨16⟩) fun _ => zero).2) := by
  obtain ⟨d₁, hformat, hformatted⟩ := run_format ⟨16⟩ (by decide) (by decide) fun _ => zero
  rw [hformat]
  refine (lookups_ok_iff ⟨⟨16⟩, 16, 8⟩ hformat _).mpr ⟨?_, trivial, trivial⟩
  intro _ _ _ s hs
  rw [freeSlot_eq_some (by decide) (hformatted.not_live 0) fun t ht => absurd ht
    (Nat.not_lt_zero t)] at hs
  cases hs
  exact ⟨fun _ => ⟨by decide, hformatted.not_live 1⟩, fun t _ ht => absurd ht
    (hformatted.not_live t)⟩

/-- A file with a name of 27 bytes is no longer found when there is a second file. -/
theorem long_name_lost :
    let mnt : Mount := ⟨⟨16⟩, 16, 8⟩
    let a : CStr := ⟨List.replicate 27 97, by decide⟩
    let b : CStr := ⟨[98], by decide⟩
    let d := (run (format ⟨16⟩) fun _ => zero).2
    (run (create 0 mnt a) d).1 = .ok () ∧
      (run (create 0 mnt b) ((Op.create 0 a).step mnt d)).1 = .ok () ∧
      (run (findDirent 0 ⟨16⟩ a) ((Op.create 0 b).step mnt ((Op.create 0 a).step mnt d))).1 =
        .error .noent := by
  intro mnt a b d
  obtain ⟨d₁, hformat, hformatted⟩ := run_format ⟨16⟩ (by decide) (by decide) fun _ => zero
  obtain rfl : d = d₁ := congrArg Prod.snd hformat
  have hm₁ : MetaOk mnt.dev.blockCount (view ((Op.create 0 a).step mnt d)) :=
    metaOk_step _ hformatted.ok
  have hm₂ : MetaOk mnt.dev.blockCount
      (view ((Op.create 0 b).step mnt ((Op.create 0 a).step mnt d))) := metaOk_step _ hm₁
  have hfirst : view ((Op.create 0 a).step mnt d) = (view d).link 0 2 8 a :=
    view_first hformatted 0 (by decide)
  have hview : view ((Op.create 0 b).step mnt ((Op.create 0 a).step mnt d)) =
      ((view d).link 0 2 8 a).link 1 3 9 b :=
    view_second hformatted (by decide) 0 (by decide) (by decide) (by decide)
  refine ⟨?_, ?_, ?_⟩
  · have hm₀ : MetaOk mnt.dev.blockCount (view d) := hformatted.ok
    have hrun := (runs_create 0 a hm₀).1
    exact hrun.trans (congrArg Prod.fst (create_first hformatted 0 (by decide)))
  · have hrun := (runs_create 0 b hm₁).1
    rw [hrun, hfirst,
      create_second hformatted (by decide) 0 (by decide) (by decide) (by decide)]
  · have hrun := (runs_findDirent 0 a hm₂).1
    rw [hview] at hm₂ hrun
    obtain ⟨hdistinct, hslot⟩ := slotOf_second (a := a) (b := b) hformatted (by decide) (by decide)
      (by decide)
    obtain ⟨hlive, hname⟩ := slotOf_some hslot
    have hnext : (((view d).link 0 2 8 a).link 1 3 9 b).ent.Live 1 :=
      live_update_self (by decide) (by rw [dirent_ino b (by decide)]; decide)
    have hfind := find_of_next_live hdistinct hlive (by rw [hname]; rfl) hnext
      (hm₂.ino_le 1 hnext) 0
    rw [hname] at hfind
    rw [hrun, View.search, if_pos (by decide), hfind]

end Mcsos.Mcsfs1
