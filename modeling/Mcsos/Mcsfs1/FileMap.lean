import Mcsos.Mcsfs1.Format

/-!
# A filesystem is a map from names to contents

`fileMap v` reads the files off the tables.  As long as live entries have different names, and for
names shorter than the field that holds them, every call answers as that map says and changes it
as it should (`filesystem_refines_map`).
-/

namespace Mcsos.Mcsfs1

open Bytes Function Prog

/-- Contents by name. -/
abbrev FileMap : Type := CStr → Option (List UInt8)

/-- The slot of the entry with a given name. -/
def Dir.slotOf (dir : Dir) (name : CStr) : Option ℕ :=
  (List.range direntCount).find? fun s => decide (dir.Live s ∧ (dir s).name = name)

/-- The files of the filesystem. -/
def fileMap (v : View) : FileMap := fun name =>
  (v.ent.slotOf name).map fun s => content v.data (v.inode (v.ent.ino s))

/-- Live entries have different names. -/
def Dir.NamesDistinct (dir : Dir) : Prop :=
  ∀ s t, dir.Live s → dir.Live t → (dir s).name = (dir t).name → s = t

/-- A name that leaves room for its terminator. -/
def ShortName (name : CStr) : Prop := 0 < name.length ∧ name.length < maxName

instance (name : CStr) : Decidable (ShortName name) := inferInstanceAs (Decidable (_ ∧ _))

theorem ShortName.valid {name : CStr} (h : ShortName name) : ValidName name := ⟨h.1, h.2.le⟩

/-! ## Slots by name -/

section Slots

variable {dir : Dir} {name : CStr} {s : ℕ}

theorem slotOf_some (h : dir.slotOf name = some s) : dir.Live s ∧ (dir s).name = name :=
  of_decide_eq_true (List.find?_some
    (p := fun s => decide (dir.Live s ∧ (dir s).name = name)) h)

theorem slotOf_none (h : dir.slotOf name = none) (hs : dir.Live s) : (dir s).name ≠ name := by
  intro hname
  have := List.find?_eq_none.mp h s (List.mem_range.mpr hs.1)
  exact this (decide_eq_true ⟨hs, hname⟩)

theorem slotOf_eq_some (hdistinct : dir.NamesDistinct) (hs : dir.Live s)
    (hname : (dir s).name = name) :
    dir.slotOf name = some s := by
  cases h : dir.slotOf name with
  | none => exact absurd hname (slotOf_none h hs)
  | some t =>
      obtain ⟨ht, htname⟩ := slotOf_some h
      rw [hdistinct t s ht hs (htname.trans hname.symm)]

theorem slotOf_eq_none (h : ∀ s, dir.Live s → (dir s).name ≠ name) : dir.slotOf name = none := by
  cases hslot : dir.slotOf name with
  | none => rfl
  | some t => exact absurd (slotOf_some hslot).2 (h t (slotOf_some hslot).1)

/-- For a short name the lookup is exact. -/
theorem find_eq_slotOf (beyond : UInt8) (h : ShortName name) :
    dir.find beyond name = dir.slotOf name := by
  apply List.find?_congr
  intro s _
  have : dir.Matches beyond name s ↔ dir.Live s ∧ (dir s).name = name :=
    ⟨fun hs => ⟨hs.1, hs.2.1⟩, fun hs => ⟨hs.1, hs.2, fun hlen => absurd hlen h.2.ne⟩⟩
  exact decide_eq_decide.mpr this

theorem name_update_of_ne {e : Entry} {t : ℕ} (hne : t ≠ s) :
    (update dir s e t).name = (dir t).name := by
  rw [update_of_ne hne]

/-- Adding an entry adds its name. -/
theorem slotOf_link (hdistinct : dir.NamesDistinct) {e : Entry} (hs : s < direntCount)
    (hunused : ¬ dir.Live s) (he : e.ino ≠ 0) (hnew : dir.slotOf e.name = none) :
    Dir.NamesDistinct (update dir s e) ∧
      ∀ name, Dir.slotOf (update dir s e) name = if name = e.name then some s
        else dir.slotOf name := by
  have hself : (update dir s e s).name = e.name := by rw [update_self]
  have hdistinct' : Dir.NamesDistinct (update dir s e) := by
    intro t u ht hu heq
    by_cases hts : t = s <;> by_cases hus : u = s
    · exact hts.trans hus.symm
    · rw [hts, hself, name_update_of_ne hus] at heq
      exact absurd heq.symm (slotOf_none hnew ((live_update_of_ne hus).mp hu))
    · rw [hus, hself, name_update_of_ne hts] at heq
      exact absurd heq (slotOf_none hnew ((live_update_of_ne hts).mp ht))
    · rw [name_update_of_ne hts, name_update_of_ne hus] at heq
      exact hdistinct t u ((live_update_of_ne hts).mp ht) ((live_update_of_ne hus).mp hu) heq
  refine ⟨hdistinct', fun name => ?_⟩
  split_ifs with hname
  · exact slotOf_eq_some hdistinct' (live_update_self hs he) (hself.trans hname.symm)
  -- any other name is where it was
  · cases hslot : dir.slotOf name with
    | none =>
        apply slotOf_eq_none
        intro t ht
        by_cases hts : t = s
        · rw [hts, hself]
          exact Ne.symm hname
        · rw [name_update_of_ne hts]
          exact slotOf_none hslot ((live_update_of_ne hts).mp ht)
    | some t =>
        obtain ⟨ht, htname⟩ := slotOf_some hslot
        have hts : t ≠ s := by
          rintro rfl
          exact hunused ht
        exact slotOf_eq_some hdistinct' ((live_update_of_ne hts).mpr ht)
          ((name_update_of_ne hts).trans htname)

/-- Removing an entry removes its name. -/
theorem slotOf_drop (hdistinct : dir.NamesDistinct) (hs : dir.Live s) :
    Dir.NamesDistinct (update dir s zero) ∧
      ∀ name, Dir.slotOf (update dir s zero) name =
        if name = (dir s).name then none else dir.slotOf name := by
  have hdistinct' : Dir.NamesDistinct (update dir s zero) := by
    intro t u ht hu heq
    obtain ⟨ht, hts⟩ := live_update_zero.mp ht
    obtain ⟨hu, hus⟩ := live_update_zero.mp hu
    rw [name_update_of_ne hts, name_update_of_ne hus] at heq
    exact hdistinct t u ht hu heq
  refine ⟨hdistinct', fun name => ?_⟩
  split_ifs with hname
  · apply slotOf_eq_none
    intro t ht heq
    obtain ⟨ht, hts⟩ := live_update_zero.mp ht
    rw [name_update_of_ne hts, hname] at heq
    exact hts (hdistinct t s ht hs heq)
  · cases hslot : dir.slotOf name with
    | none =>
        apply slotOf_eq_none
        intro t ht
        obtain ⟨ht, hts⟩ := live_update_zero.mp ht
        rw [name_update_of_ne hts]
        exact slotOf_none hslot ht
    | some t =>
        obtain ⟨ht, htname⟩ := slotOf_some hslot
        have hts : t ≠ s := by
          rintro rfl
          exact hname htname.symm
        exact slotOf_eq_some hdistinct' (live_update_zero.mpr ⟨ht, hts⟩)
          ((name_update_of_ne hts).trans htname)

end Slots

/-! ## Contents -/

theorem content_congr {data data' : ℕ → Block} {x : Inode}
    (h : ∀ i, blockSize * i < x.size → data' (x.direct i) = data (x.direct i)) :
    content data' x = content data x := by
  apply List.map_congr_left
  intro k hk
  have hlt := List.mem_range.mp hk
  have hblock : blockSize * (k / blockSize) < x.size := by
    simp only [blockSize]
    omega
  rw [h _ hblock]

/-- Reading back what was written. -/
theorem byte_fileBlock (data : List UInt8) {k : ℕ} (hk : k < data.length) :
    (fileBlock data (k / blockSize)).byte (k % blockSize) = data.get ⟨k, hk⟩ := by
  simp only [blockSize]
  have hmod : k % 512 < 512 := Nat.mod_lt _ (by decide)
  unfold fileBlock dataBlock
  rw [byte_splice_of_inside _ _ hmod (by simp only [blockSize]; omega), Nat.sub_zero,
    List.getD_eq_getElem _ _ (by simp only [blockSize]; omega)]
  simp only [blockSize, Nat.div_add_mod, List.get_eq_getElem]

theorem content_putBlocks {data : List UInt8} {f : ℕ → Block} {y : Inode}
    (hlen : data.length ≤ directBlocks * blockSize) (hdistinct : y.Distinct)
    (hfilled : ∀ j, j < blocksNeeded data.length → y.direct j ≠ 0) :
    content (putBlocks y data (blocksNeeded data.length) 0 f) (y.setSize data.length) = data := by
  have hsize : (y.setSize data.length).size = data.length :=
    size_setSize y _ (hlen.trans_lt (by decide))
  have hneeded := blocksNeeded_le hlen
  apply List.ext_getElem
  · rw [length_content, hsize]
  · intro k hk hk'
    have hblock : k / blockSize < blocksNeeded data.length := by
      apply lt_blocksNeeded
      simp only [blockSize]
      omega
    simp only [content, List.getElem_map, List.getElem_range, direct_setSize]
    rw [putBlocks_direct (Nat.zero_le _) (by omega), byte_fileBlock data hk', List.get_eq_getElem]
    intro j _ hj heq
    rw [Nat.zero_add] at hj
    exact hdistinct j (hj.trans_le hneeded) _ (hblock.trans_le hneeded) heq (hfilled j hj)

/-! ## Calls and their answers -/

/-- The calls on a mounted filesystem. -/
inductive Call where
  | create (name : CStr)
  | write (name : CStr) (data : List UInt8)
  | read (name : CStr) (cap : ℕ)
  | unlink (name : CStr)

/-- What a call returns. -/
inductive Reply where
  | status (r : Except Err Unit)
  | bytes (r : Except Err (List UInt8 × ℕ))

/-- The name a call is about. -/
def Call.name : Call → CStr
  | create name => name
  | write name _ => name
  | read name _ => name
  | unlink name => name

/-- A call on a healthy device; `beyond` is the byte behind the directory block in memory. -/
def Call.run (mnt : Mount) (beyond : UInt8) : Call → Disk → Reply × Disk
  | create name, d =>
      (.status (Prog.run (Mcsfs1.create beyond mnt name) d).1,
        (Prog.run (Mcsfs1.create beyond mnt name) d).2)
  | write name data, d =>
      (.status (Prog.run (Mcsfs1.write beyond mnt name data) d).1,
        (Prog.run (Mcsfs1.write beyond mnt name data) d).2)
  | read name cap, d =>
      (.bytes (Prog.run (Mcsfs1.read beyond mnt name cap) d).1,
        (Prog.run (Mcsfs1.read beyond mnt name cap) d).2)
  | unlink name, d =>
      (.status (Prog.run (Mcsfs1.unlink beyond mnt name) d).1,
        (Prog.run (Mcsfs1.unlink beyond mnt name) d).2)

/-- The calls with their answers, one after the other. -/
def trace (mnt : Mount) : List (UInt8 × Call) → Disk → List (Call × Reply)
  | [], _ => []
  | (beyond, c) :: rest, d => (c, (c.run mnt beyond d).1) :: trace mnt rest (c.run mnt beyond d).2

/-- With the files `m` before and `m'` after it, a call may answer so. -/
def Answers (m : FileMap) : Call → Reply → FileMap → Prop
  | .create name, .status r, m' =>
      (r = .error .exist ↔ m name ≠ none) ∧ (r = .ok () → m' = update m name (some [])) ∧
        (r ≠ .ok () → m' = m)
  | .write name data, .status r, m' =>
      (data.length ≤ 4096 → (r = .error .noent ↔ m name = none)) ∧
        (r = .ok () → m name ≠ none ∧ m' = update m name (some data)) ∧ (r ≠ .ok () → m' = m)
  | .read name cap, .bytes r, m' =>
      m' = m ∧ (r = .error .noent ↔ m name = none) ∧
        (r = .error .range ↔ ∃ c, m name = some c ∧ cap < c.length) ∧
        ∀ c, m name = some c → c.length ≤ cap → r = .ok (c, c.length)
  | .unlink name, .status r, m' =>
      (r = .error .noent ↔ m name = none) ∧ (r = .ok () → m' = update m name none) ∧
        (r ≠ .ok () → m' = m)
  | _, _, _ => False

/-- Starting with the files `m`, the calls may be answered so. -/
inductive Accepts : FileMap → List (Call × Reply) → Prop
  | nil (m : FileMap) : Accepts m []
  | cons {m m' : FileMap} {c : Call} {r : Reply} {rest : List (Call × Reply)}
      (h : Answers m c r m') (hrest : Accepts m' rest) : Accepts m ((c, r) :: rest)

variable {n : ℕ} {v : View} {s : ℕ} {name : CStr}

/-! ## The effect of the calls on the map -/

theorem fileMap_of_slot (h : v.ent.slotOf name = some s) :
    fileMap v name = some (content v.data (v.inode (v.ent.ino s))) := by
  rw [fileMap, h]
  rfl

theorem fileMap_eq_none : fileMap v name = none ↔ v.ent.slotOf name = none := by
  rw [fileMap, Option.map_eq_none_iff]

/-- Two views with the same names and contents are the same map. -/
theorem fileMap_congr {v' : View} {name : CStr} (hslot : v'.ent.slotOf name = v.ent.slotOf name)
    (h : ∀ t, v.ent.Live t → v.ent.slotOf name = some t →
      content v'.data (v'.inode (v'.ent.ino t)) = content v.data (v.inode (v.ent.ino t))) :
    fileMap v' name = fileMap v name := by
  rw [fileMap, fileMap, hslot]
  cases hname : v.ent.slotOf name with
  | none => rfl
  | some t => exact congrArg some (h t (slotOf_some hname).1 hname)

theorem fileMap_link (hm : MetaOk n v) (hdistinct : v.ent.NamesDistinct) {ino b : ℕ}
    (hspare : v.spare n = some (ino, b)) (hslot : v.ent.freeSlot = some s)
    (hname : name.length ≤ maxName) (hnew : v.ent.slotOf name = none) :
    (v.link s ino b name).ent.NamesDistinct ∧
      fileMap (v.link s ino b name) = update (fileMap v) name (some []) := by
  obtain ⟨⟨hlow, hhigh, hunmarked⟩, _⟩ := spare_some hspare
  obtain ⟨hs, hunused⟩ := freeSlot_some hslot
  have hino : Entry.ino (dirent ino name name.length) = ino :=
    dirent_ino name (hhigh.trans_lt (by decide))
  have hentry : Entry.name (dirent ino name name.length) = name := dirent_name ino hname
  obtain ⟨hdistinct', hslots⟩ := slotOf_link hdistinct (e := dirent ino name name.length) hs hunused
    (by rw [hino]; omega) (by rw [hentry]; exact hnew)
  refine ⟨hdistinct', ?_⟩
  funext other
  by_cases hother : other = name
  · subst hother
    have hfound : (v.link s ino b other).ent.slotOf other = some s := by
      rw [View.link, hslots, if_pos hentry.symm]
    -- the new file has a block but no bytes
    have hinode : (v.link s ino b other).inode ((v.link s ino b other).ent.ino s) =
        Inode.make modeFile 0 b := by
      dsimp only [View.link]
      rw [ino_update_self, hino, update_self]
    have hempty : (Inode.make modeFile 0 b).size = 0 := size_make modeFile 0 b
    rw [update_self, fileMap_of_slot hfound, hinode, content, hempty]
    rfl
  · rw [update_of_ne hother]
    apply fileMap_congr
    · rw [View.link, hslots, if_neg (by rw [hentry]; exact hother)]
    · intro t ht _
      have hts : t ≠ s := by
        rintro rfl
        exact hunused ht
      dsimp only [View.link]
      rw [ino_update_of_ne hts, update_of_ne (hm.ne_of_unmarked hunmarked ht)]

theorem fileMap_drop (hdistinct : v.ent.NamesDistinct) (hs : v.ent.Live s)
    (hname : (v.ent s).name = name) :
    (v.drop n s).ent.NamesDistinct ∧ fileMap (v.drop n s) = update (fileMap v) name none := by
  obtain ⟨hdistinct', hslots⟩ := slotOf_drop hdistinct hs
  refine ⟨hdistinct', ?_⟩
  funext other
  by_cases hother : other = name
  · rw [hother, update_self, fileMap_eq_none, View.drop, hslots, if_pos hname.symm]
  · rw [update_of_ne hother]
    have hkept : (v.drop n s).ent.slotOf other = v.ent.slotOf other := by
      rw [View.drop, hslots, if_neg (by rw [hname]; exact hother)]
    apply fileMap_congr hkept
    intro t ht htslot
    have hts : t ≠ s := by
      rintro rfl
      exact hother ((slotOf_some htslot).2.symm.trans hname)
    dsimp only [View.drop]
    rw [ino_update_of_ne hts]

theorem fileMap_store (hm : MetaOk n v) (hs : v.ent.slotOf name = some s) {data : List UInt8}
    (hlen : data.length ≤ directBlocks * blockSize) {y : Inode} {bb : ℕ → Bool}
    (ha : Allocated n v.bb (v.inode (v.ent.ino s)) y bb 0 (blocksNeeded data.length)) :
    fileMap (v.store s data y bb) = update (fileMap v) name (some data) := by
  obtain ⟨hlive, hname⟩ := slotOf_some hs
  have hx := hm.inode s hlive
  funext other
  by_cases hother : other = name
  · subst hother
    have hfound : (v.store s data y bb).ent.slotOf other = some s := hs
    rw [update_self, fileMap_of_slot hfound]
    dsimp only [View.store]
    rw [update_self, content_putBlocks hlen (ha.distinct hx (hm.distinct hlive))
      fun j hj => ha.filled j (Nat.zero_le j) hj]
  · rw [update_of_ne hother]
    have hkept : (v.store s data y bb).ent.slotOf other = v.ent.slotOf other := rfl
    apply fileMap_congr hkept
    intro t ht htslot
    have hts : t ≠ s := by
      rintro rfl
      exact hother ((slotOf_some htslot).2.symm.trans hname)
    have hino : v.ent.ino t ≠ v.ent.ino s := fun heq => hts (hm.ino_inj t s ht hlive heq)
    dsimp only [View.store]
    rw [update_of_ne hino]
    apply content_congr
    intro i hi
    -- the blocks of another file are neither old nor fresh blocks of this one
    have hxt := hm.inode t ht
    have hi8 : i < directBlocks := by
      have := hxt.size
      simp only [directBlocks, blockSize] at *
      omega
    have hown : Owns v.ent v.inode t i ((v.inode (v.ent.ino t)).direct i) :=
      ⟨ht, hi8, rfl, hxt.covered i hi⟩
    apply putBlocks_of_ne
    intro j _ hj heq
    rw [Nat.zero_add] at hj
    have hj8 := hj.trans_le (blocksNeeded_le hlen)
    by_cases h0 : (v.inode (v.ent.ino s)).direct j = 0
    · rw [← heq] at hown
      exact hm.not_owns_of_unmarked (ha.fresh j h0 (ha.filled j (Nat.zero_le j) hj)).2.2 t i hown
    · rw [ha.old j h0] at heq
      exact hts (hm.block_inj t s i j _ hown ⟨hlive, hj8, heq, hown.nonzero⟩).1

/-! ## Every call answers as the map -/

theorem search_short (beyond : UInt8) (hname : ShortName name) :
    v.search beyond name =
      match v.ent.slotOf name with
      | some s => .ok (s, v.ent.ino s)
      | none => .error .noent := by
  have hfind : v.ent.find beyond name = v.ent.slotOf name := find_eq_slotOf beyond hname
  cases hslot : v.ent.slotOf name with
  | none => rw [View.search, if_pos hname.valid, hfind, hslot]
  | some s => rw [View.search, if_pos hname.valid, hfind, hslot]

theorem create_answers (beyond : UInt8) (hname : ShortName name) (hm : MetaOk n v)
    (hdistinct : v.ent.NamesDistinct) :
    Answers (fileMap v) (.create name) (.status (v.create n beyond name).1)
        (fileMap (v.create n beyond name).2) ∧
      (v.create n beyond name).2.ent.NamesDistinct := by
  rw [View.create, if_neg (not_not.mpr hname.valid), find_eq_slotOf beyond hname]
  cases hslot : v.ent.slotOf name with
  | some s =>
      have hpresent : fileMap v name ≠ none := by
        rw [fileMap_of_slot hslot]
        exact Option.some_ne_none _
      rw [if_pos (by rfl : (some s).isSome = true)]
      exact ⟨⟨⟨fun _ => hpresent, fun _ => rfl⟩, fun h => (by cases h), fun _ => rfl⟩, hdistinct⟩
  | none =>
      have habsent : fileMap v name = none := fileMap_eq_none.mpr hslot
      rw [if_neg (by simp), View.createNew]
      have hnospc : Answers (fileMap v) (.create name) (.status (.error .nospc)) (fileMap v) :=
        ⟨⟨fun h => (by cases h), fun h => absurd habsent h⟩, fun h => (by cases h), fun _ => rfl⟩
      cases hfree : v.ent.freeSlot with
      | none => exact ⟨hnospc, hdistinct⟩
      | some s =>
          cases hspare : v.spare n with
          | none => exact ⟨hnospc, hdistinct⟩
          | some x =>
              obtain ⟨ino, b⟩ := x
              obtain ⟨hdistinct', hmap⟩ :=
                fileMap_link hm hdistinct hspare hfree hname.valid.2 hslot
              exact ⟨⟨⟨fun h => (by cases h), fun h => absurd habsent h⟩, fun _ => hmap,
                fun h => absurd rfl h⟩, hdistinct'⟩

theorem write_answers (beyond : UInt8) (data : List UInt8) (hname : ShortName name)
    (hm : MetaOk n v) (hdistinct : v.ent.NamesDistinct) :
    Answers (fileMap v) (.write name data) (.status (v.write n beyond name data).1)
        (fileMap (v.write n beyond name data).2) ∧
      (v.write n beyond name data).2.ent.NamesDistinct := by
  unfold View.write
  by_cases hlen : directBlocks * blockSize < data.length
  · rw [if_pos hlen]
    exact ⟨⟨fun h => absurd h (Nat.not_le.mpr hlen), fun h => (by cases h),
      fun _ => rfl⟩, hdistinct⟩
  have hlen' := Nat.le_of_not_lt hlen
  rw [if_neg hlen, search_short beyond hname]
  cases hslot : v.ent.slotOf name with
  | none =>
      have habsent : fileMap v name = none := fileMap_eq_none.mpr hslot
      exact ⟨⟨fun _ => ⟨fun _ => habsent, fun _ => rfl⟩, fun h => (by cases h),
        fun _ => rfl⟩, hdistinct⟩
  | some s =>
      have hpresent : fileMap v name ≠ none := by
        rw [fileMap_of_slot hslot]
        exact Option.some_ne_none _
      dsimp only
      rcases put_cases hm s hlen' with ⟨bb, _, hput⟩ | ⟨y, bb, ha, hput⟩
      · rw [hput]
        exact ⟨⟨fun _ => ⟨fun h => (by cases h), fun h => absurd h hpresent⟩, fun h => (by cases h),
          fun _ => rfl⟩, hdistinct⟩
      · rw [hput]
        exact ⟨⟨fun _ => ⟨fun h => (by cases h), fun h => absurd h hpresent⟩,
          fun _ => ⟨hpresent, fileMap_store hm hslot hlen' ha⟩, fun h => absurd rfl h⟩, hdistinct⟩

theorem unlink_answers (beyond : UInt8) (hname : ShortName name) (hdistinct : v.ent.NamesDistinct) :
    Answers (fileMap v) (.unlink name) (.status (v.unlink n beyond name).1)
        (fileMap (v.unlink n beyond name).2) ∧
      (v.unlink n beyond name).2.ent.NamesDistinct := by
  rw [View.unlink, search_short beyond hname]
  cases hslot : v.ent.slotOf name with
  | none =>
      have habsent : fileMap v name = none := fileMap_eq_none.mpr hslot
      exact ⟨⟨⟨fun _ => habsent, fun _ => rfl⟩, fun h => (by cases h), fun _ => rfl⟩, hdistinct⟩
  | some s =>
      obtain ⟨hlive, hentry⟩ := slotOf_some hslot
      have hpresent : fileMap v name ≠ none := by
        rw [fileMap_of_slot hslot]
        exact Option.some_ne_none _
      obtain ⟨hdistinct', hmap⟩ := fileMap_drop (n := n) hdistinct hlive hentry
      exact ⟨⟨⟨fun h => (by cases h), fun h => absurd h hpresent⟩, fun _ => hmap,
        fun h => absurd rfl h⟩, hdistinct'⟩

theorem read_answers (beyond : UInt8) (cap : ℕ) (hname : ShortName name) :
    Answers (fileMap v) (.read name cap) (.bytes (v.read beyond name cap)) (fileMap v) := by
  refine ⟨rfl, ?_⟩
  rw [View.read, search_short beyond hname]
  cases hslot : v.ent.slotOf name with
  | none =>
      have habsent : fileMap v name = none := fileMap_eq_none.mpr hslot
      rw [habsent]
      refine ⟨⟨fun _ => rfl, fun _ => rfl⟩, ⟨fun h => (by cases h), ?_⟩, ?_⟩
      · rintro ⟨c, hc, _⟩
        cases hc
      · intro c hc
        cases hc
  | some s =>
      rw [fileMap_of_slot hslot]
      dsimp only
      by_cases hcap : cap < (v.inode (v.ent.ino s)).size
      · rw [if_pos hcap]
        refine ⟨⟨fun h => (by cases h), fun h => (by cases h)⟩,
          ⟨fun _ => ⟨_, rfl, ?_⟩, fun _ => rfl⟩, ?_⟩
        · rw [length_content]
          exact hcap
        · rintro c ⟨rfl⟩ hc
          rw [length_content] at hc
          omega
      · rw [if_neg hcap]
        refine ⟨⟨fun h => (by cases h), fun h => (by cases h)⟩, ⟨fun h => (by cases h), ?_⟩, ?_⟩
        · rintro ⟨c, ⟨rfl⟩, hc⟩
          rw [length_content] at hc
          exact absurd hc hcap
        · rintro c ⟨rfl⟩ _
          rw [length_content]

/-- One call on a filesystem with good metadata and different names. -/
theorem call_answers {mnt : Mount} {d : Disk} (c : Call) (beyond : UInt8) (hname : ShortName c.name)
    (hm : MetaOk mnt.dev.blockCount (view d)) (hdistinct : (view d).ent.NamesDistinct) :
    Answers (fileMap (view d)) c (c.run mnt beyond d).1 (fileMap (view (c.run mnt beyond d).2)) ∧
      MetaOk mnt.dev.blockCount (view (c.run mnt beyond d).2) ∧
      (view (c.run mnt beyond d).2).ent.NamesDistinct := by
  cases c with
  | create name =>
      have hruns := runs_create beyond name hm
      obtain ⟨hanswer, hdistinct'⟩ := create_answers beyond hname hm hdistinct
      dsimp only [Call.run]
      rw [hruns.1, hruns.2.1]
      exact ⟨hanswer, hruns.final, hdistinct'⟩
  | write name data =>
      have hruns := runs_write beyond name data hm
      obtain ⟨hanswer, hdistinct'⟩ := write_answers beyond data hname hm hdistinct
      dsimp only [Call.run]
      rw [hruns.1, hruns.2.1]
      exact ⟨hanswer, hruns.final, hdistinct'⟩
  | read name cap =>
      have hruns := runs_read beyond name cap hm
      dsimp only [Call.run]
      rw [hruns.1, hruns.2.1]
      exact ⟨read_answers beyond cap hname, hm, hdistinct⟩
  | unlink name =>
      have hruns := runs_unlink beyond name hm
      obtain ⟨hanswer, hdistinct'⟩ := unlink_answers beyond hname hdistinct
      dsimp only [Call.run]
      rw [hruns.1, hruns.2.1]
      exact ⟨hanswer, hruns.final, hdistinct'⟩

theorem trace_accepted {mnt : Mount} (calls : List (UInt8 × Call))
    (hnames : ∀ c ∈ calls, ShortName c.2.name) {d : Disk} (hm : MetaOk mnt.dev.blockCount (view d))
    (hdistinct : (view d).ent.NamesDistinct) :
    Accepts (fileMap (view d)) (trace mnt calls d) := by
  induction calls generalizing d with
  | nil => exact Accepts.nil _
  | cons c rest ih =>
      obtain ⟨hanswer, hm', hdistinct'⟩ :=
        call_answers c.2 c.1 (hnames c List.mem_cons_self) hm hdistinct
      exact Accepts.cons hanswer
        (ih (fun c' hc' => hnames c' (List.mem_cons_of_mem c hc')) hm' hdistinct')

theorem fileMap_formatted (h : Formatted n v) : fileMap v = fun _ => none := by
  funext name
  rw [fileMap_eq_none]
  exact slotOf_eq_none fun s hs => absurd hs (h.not_live s)

/-- **MCSFS1 refines a map.**  After a successful format and mount of a healthy device with any
previous contents, every sequence of calls with names of 1 to 26 bytes is answered as a map from
names to contents, initially empty, answers it. -/
theorem filesystem_refines_map {dev : Blkdev} {mnt : Mount} {d d₁ d₂ : Disk}
    (hformat : run (format dev) d = (.ok (), d₁)) (hmount : run (mount dev) d₁ = (.ok mnt, d₂))
    (calls : List (UInt8 × Call)) (hnames : ∀ c ∈ calls, ShortName c.2.name) :
    Accepts (fun _ => none) (trace mnt calls d₂) := by
  have hformatted := format_formatted hformat
  have hruns := runs_mount hformatted.ok
  rw [Runs, Does, hmount] at hruns
  obtain ⟨hmnt, hview, _⟩ := hruns
  have hdev : mnt.dev = dev := by
    cases hmnt
    rfl
  have hm : MetaOk mnt.dev.blockCount (view d₂) := by
    rw [hdev, hview]
    exact hformatted.ok
  have hdistinct : (view d₂).ent.NamesDistinct := by
    rw [hview]
    exact fun s _ hs => absurd hs (hformatted.not_live s)
  rw [← fileMap_formatted hformatted, ← hview]
  exact trace_accepted calls hnames hm hdistinct

theorem filesystem_refines_map_formatted :
    ∃ mnt d₁ d₂, run (format ⟨16⟩) (fun _ => zero) = (.ok (), d₁) ∧
      run (mount ⟨16⟩) d₁ = (.ok mnt, d₂) ∧
      Accepts (fun _ => none) (trace mnt [(0, .create ⟨[97], by decide⟩),
        (0, .write ⟨[97], by decide⟩ [1, 2, 3]), (0, .read ⟨[97], by decide⟩ 8)] d₂) := by
  obtain ⟨d₁, hformat, hformatted⟩ := run_format ⟨16⟩ (by decide) (by decide) fun _ => zero
  have hmount : run (mount ⟨16⟩) d₁ = (.ok ⟨⟨16⟩, 16, dataStartLba⟩, (run (mount ⟨16⟩) d₁).2) :=
    Prod.ext (runs_mount hformatted.ok).1 rfl
  exact ⟨_, d₁, _, hformat, hmount, filesystem_refines_map hformat hmount _ (by
    simp [ShortName, Call.name, CStr.length, maxName])⟩

end Mcsos.Mcsfs1
