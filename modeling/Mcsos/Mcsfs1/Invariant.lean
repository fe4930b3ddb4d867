import Mcsos.Mcsfs1.View

/-!
# The metadata invariant

`MetaOk n v` is what holds of the tables `v` of a device of `n` blocks at every moment, also in the
middle of an operation: the superblock and the root inode are good, the reserved blocks are marked,
every live entry refers to a marked file inode of its own, and every block of a live file is a
marked data block that no other file, and no other place in the same file, refers to.  Marked
inodes and blocks that nothing refers to are allowed.

The second part of the file has one lemma for each change an operation makes to the tables.  The
order in which the operations make them is what the hypotheses of these lemmas ask for: allocate
and fill in before linking, unlink before freeing.
-/

namespace Mcsos.Mcsfs1

open Bytes Function

/-- The superblock passes the checks of `load_super` and `mcsfs1_fsck`. -/
structure SuperOk (n : ℕ) (sb : Block) : Prop where
  magic : sb.u32 0 = magic
  version : sb.u32 4 = version
  blockSize : sb.u32 8 = blockSize
  blockCount : sb.u32 12 = n
  inodeCount : sb.u32 16 = maxInodes
  inodeBmap : sb.u32 20 = inodeBmapLba
  blockBmap : sb.u32 24 = blockBmapLba
  inodeTable : sb.u32 28 = inodeTableLba
  rootIno : sb.u32 36 = rootIno
  rootDir : sb.u32 40 = rootDirLba
  dataStart : sb.u32 44 = dataStartLba
  clean : sb.u32 48 = 1

/-- The inode of a file, in a device of `n` blocks with block bitmap `bb`. -/
structure InodeOk (n : ℕ) (bb : ℕ → Bool) (x : Inode) : Prop where
  mode : x.mode = modeFile
  size : x.size ≤ directBlocks * blockSize
  covered : ∀ i, blockSize * i < x.size → x.direct i ≠ 0
  block : ∀ i < directBlocks, x.direct i ≠ 0 →
    dataStartLba ≤ x.direct i ∧ x.direct i < n ∧ bb (x.direct i) = true

/-- The file of slot `s` has block `b` in place `i`. -/
structure Owns (dir : Dir) (inode : ℕ → Inode) (s i b : ℕ) : Prop where
  live : dir.Live s
  place : i < directBlocks
  direct : (inode (dir.ino s)).direct i = b
  nonzero : b ≠ 0

/-- The invariant of the metadata. -/
structure MetaOk (n : ℕ) (v : View) : Prop where
  bounds : dataStartLba < n ∧ n ≤ 4096
  super : SuperOk n v.super
  root_mode : (v.inode rootIno).mode = modeDir
  root_size : (v.inode rootIno).size = blockSize
  root_direct : (v.inode rootIno).direct 0 = rootDirLba
  reserved : ∀ b < dataStartLba, v.bb b = true
  ino : ∀ s, v.ent.Live s → 2 ≤ v.ent.ino s ∧ v.ent.ino s ≤ maxInodes ∧ v.ib (v.ent.ino s) = true
  inode : ∀ s, v.ent.Live s → InodeOk n v.bb (v.inode (v.ent.ino s))
  ino_inj : ∀ s t, v.ent.Live s → v.ent.Live t → v.ent.ino s = v.ent.ino t → s = t
  block_inj : ∀ s t i j b, Owns v.ent v.inode s i b → Owns v.ent v.inode t j b → s = t ∧ i = j

variable {n : ℕ} {v : View}

theorem InodeOk.mono {bb bb' : ℕ → Bool} {x : Inode} (h : InodeOk n bb x)
    (hbb : ∀ i < directBlocks, x.direct i ≠ 0 → bb (x.direct i) = true → bb' (x.direct i) = true) :
    InodeOk n bb' x := by
  refine ⟨h.mode, h.size, h.covered, fun i hi hne => ?_⟩
  obtain ⟨hlow, hhigh, hmarked⟩ := h.block i hi hne
  exact ⟨hlow, hhigh, hbb i hi hne hmarked⟩

/-- An owned block is a marked data block. -/
theorem Owns.block {s i b : ℕ} (hown : Owns v.ent v.inode s i b) (h : MetaOk n v) :
    dataStartLba ≤ b ∧ b < n ∧ v.bb b = true := by
  have := (h.inode s hown.live).block i hown.place
  rw [hown.direct] at this
  exact this hown.nonzero

theorem MetaOk.ino_range (h : MetaOk n v) {s : ℕ} (hs : v.ent.Live s) :
    1 ≤ v.ent.ino s ∧ v.ent.ino s ≤ maxInodes := by
  have := h.ino s hs
  exact ⟨by omega, this.2.1⟩

/-- An inode that is not marked belongs to no entry. -/
theorem MetaOk.ne_of_unmarked (h : MetaOk n v) {ino : ℕ} (hino : v.ib ino = false) {s : ℕ}
    (hs : v.ent.Live s) : v.ent.ino s ≠ ino := by
  rintro rfl
  rw [(h.ino s hs).2.2] at hino
  cases hino

/-- A block that is not marked belongs to no file. -/
theorem MetaOk.not_owns_of_unmarked (h : MetaOk n v) {b : ℕ} (hb : v.bb b = false) (s i : ℕ) :
    ¬ Owns v.ent v.inode s i b := by
  intro hown
  rw [(hown.block h).2.2] at hb
  cases hb

/-! ## The changes that operations make -/

/-- The inode bitmap may change as long as live inodes stay marked. -/
theorem MetaOk.setIb (h : MetaOk n v) {ib : ℕ → Bool}
    (hkeep : ∀ s, v.ent.Live s → ib (v.ent.ino s) = true) : MetaOk n { v with ib := ib } :=
  ⟨h.bounds, h.super, h.root_mode, h.root_size, h.root_direct, h.reserved,
    fun s hs => ⟨(h.ino s hs).1, (h.ino s hs).2.1, hkeep s hs⟩, h.inode, h.ino_inj, h.block_inj⟩

/-- The block bitmap may change as long as reserved and owned blocks stay marked. -/
theorem MetaOk.setBb (h : MetaOk n v) {bb : ℕ → Bool} (hreserved : ∀ b < dataStartLba, bb b = true)
    (hkeep : ∀ s i b, Owns v.ent v.inode s i b → bb b = true) : MetaOk n { v with bb := bb } :=
  ⟨h.bounds, h.super, h.root_mode, h.root_size, h.root_direct, hreserved, h.ino,
    fun s hs => (h.inode s hs).mono fun i hi hne _ => hkeep s i _ ⟨hs, hi, rfl, hne⟩, h.ino_inj,
    h.block_inj⟩

/-- Data is no metadata. -/
theorem MetaOk.setData (h : MetaOk n v) (data : ℕ → Block) : MetaOk n { v with data := data } :=
  ⟨h.bounds, h.super, h.root_mode, h.root_size, h.root_direct, h.reserved, h.ino,
    h.inode, h.ino_inj, h.block_inj⟩

theorem update_true_of {f : ℕ → Bool} {i j : ℕ} (h : f j = true) : update f i true j = true := by
  by_cases heq : j = i
  · rw [heq, update_self]
  · rw [update_of_ne heq, h]

theorem MetaOk.markIno (h : MetaOk n v) (ino : ℕ) :
    MetaOk n { v with ib := update v.ib ino true } :=
  h.setIb fun s hs => update_true_of (h.ino s hs).2.2

theorem MetaOk.markBlock (h : MetaOk n v) (b : ℕ) :
    MetaOk n { v with bb := update v.bb b true } :=
  h.setBb (fun c hc => update_true_of (h.reserved c hc))
    fun _ _ _ hown => update_true_of (hown.block h).2.2

/-- The inode table may change as long as the root inode stays and the inodes of live entries stay
good and do not share blocks. -/
theorem MetaOk.setInodes (h : MetaOk n v) {inode : ℕ → Inode}
    (hroot : inode rootIno = v.inode rootIno)
    (hok : ∀ s, v.ent.Live s → InodeOk n v.bb (inode (v.ent.ino s)))
    (hinj : ∀ s t i j b, Owns v.ent inode s i b → Owns v.ent inode t j b → s = t ∧ i = j) :
    MetaOk n { v with inode := inode } := by
  refine ⟨h.bounds, h.super, ?_, ?_, ?_, h.reserved, h.ino, hok, h.ino_inj, hinj⟩
  · exact (congrArg Inode.mode hroot).trans h.root_mode
  · exact (congrArg Inode.size hroot).trans h.root_size
  · exact (congrArg (Inode.direct · 0) hroot).trans h.root_direct

/-- Filling in an inode that no entry refers to. -/
theorem MetaOk.setFreeInode (h : MetaOk n v) {ino : ℕ} (hroot : ino ≠ rootIno)
    (hfree : ∀ s, v.ent.Live s → v.ent.ino s ≠ ino) (x : Inode) :
    MetaOk n { v with inode := update v.inode ino x } := by
  have hother : ∀ s, v.ent.Live s →
      update v.inode ino x (v.ent.ino s) = v.inode (v.ent.ino s) := fun s hs =>
    update_of_ne (hfree s hs) _ _
  have hown : ∀ s i b, Owns v.ent (update v.inode ino x) s i b → Owns v.ent v.inode s i b := by
    intro s i b hs
    have hdirect := hs.direct
    rw [hother s hs.live] at hdirect
    exact ⟨hs.live, hs.place, hdirect, hs.nonzero⟩
  apply h.setInodes (update_of_ne (Ne.symm hroot) _ _)
  · intro s hs
    rw [hother s hs]
    exact h.inode s hs
  · intro s t i j b hs ht
    exact h.block_inj s t i j b (hown s i b hs) (hown t j b ht)

/-- The blocks of the inode `x` are different from each other. -/
def Inode.Distinct (x : Inode) : Prop :=
  ∀ i < directBlocks, ∀ j < directBlocks, x.direct i = x.direct j → x.direct i ≠ 0 → i = j

theorem MetaOk.distinct (h : MetaOk n v) {s : ℕ} (hs : v.ent.Live s) :
    (v.inode (v.ent.ino s)).Distinct := fun i hi j hj heq hne =>
  (h.block_inj s s i j _ ⟨hs, hi, rfl, hne⟩ ⟨hs, hj, heq.symm, hne⟩).2

/-- Rewriting the inode of a live entry; its blocks may not belong to another file. -/
theorem MetaOk.rewriteInode (h : MetaOk n v) {s : ℕ} (hs : v.ent.Live s) {x : Inode}
    (hx : InodeOk n v.bb x) (hdistinct : x.Distinct)
    (hown : ∀ i < directBlocks, x.direct i ≠ 0 →
      ∀ t j, Owns v.ent v.inode t j (x.direct i) → t = s) :
    MetaOk n { v with inode := update v.inode (v.ent.ino s) x } := by
  have hroot : v.ent.ino s ≠ rootIno := by
    have := (h.ino s hs).1
    simp only [rootIno]
    omega
  have hself : update v.inode (v.ent.ino s) x (v.ent.ino s) = x := update_self _ _ _
  have hother : ∀ t, v.ent.Live t → t ≠ s →
      update v.inode (v.ent.ino s) x (v.ent.ino t) = v.inode (v.ent.ino t) := fun t ht hne =>
    update_of_ne (fun heq => hne (h.ino_inj t s ht hs heq)) _ _
  -- a block of another file is one it had before; a block of this file is one of `x`
  have hold : ∀ {t j b}, Owns v.ent (update v.inode (v.ent.ino s) x) t j b → t ≠ s →
      Owns v.ent v.inode t j b := by
    intro t j b ht hne
    have hdirect := ht.direct
    rw [hother t ht.live hne] at hdirect
    exact ⟨ht.live, ht.place, hdirect, ht.nonzero⟩
  have hnew : ∀ {j b}, Owns v.ent (update v.inode (v.ent.ino s) x) s j b → x.direct j = b := by
    intro j b ht
    have hdirect := ht.direct
    rwa [hself] at hdirect
  apply h.setInodes (update_of_ne (Ne.symm hroot) _ _)
  · intro t ht
    by_cases hne : t = s
    · rw [hne, hself]
      exact hx
    · rw [hother t ht hne]
      exact h.inode t ht
  · intro t u i j b ht hu
    by_cases hts : t = s <;> by_cases hus : u = s
    · subst hts hus
      have hi := hnew ht
      have hj := hnew hu
      exact ⟨rfl, hdistinct i ht.place j hu.place (hi.trans hj.symm) (hi ▸ ht.nonzero)⟩
    · subst hts
      have hi := hnew ht
      exact absurd (hown i ht.place (hi ▸ ht.nonzero) u j (hi ▸ hold hu hus)) hus
    · subst hus
      have hj := hnew hu
      exact absurd (hown j hu.place (hj ▸ hu.nonzero) t i (hj ▸ hold ht hts)) hts
    · exact h.block_inj t u i j b (hold ht hts) (hold hu hus)

/-! ## Entries -/

section Dir

variable {dir : Dir} {inode : ℕ → Inode} {s t : ℕ} {e : Entry}

theorem live_update_of_ne (hne : t ≠ s) : Dir.Live (update dir s e) t ↔ dir.Live t := by
  unfold Dir.Live
  rw [update_of_ne hne]

theorem ino_update_of_ne (hne : t ≠ s) : Dir.ino (update dir s e) t = dir.ino t := by
  unfold Dir.ino
  rw [update_of_ne hne]

theorem live_update_self (hs : s < direntCount) (he : e.ino ≠ 0) : Dir.Live (update dir s e) s := by
  unfold Dir.Live
  rw [update_self]
  exact ⟨hs, he⟩

@[simp] theorem ino_update_self : Dir.ino (update dir s e) s = e.ino := by
  unfold Dir.ino
  rw [update_self]

theorem not_live_update_zero : ¬ Dir.Live (update dir s zero) s := by
  unfold Dir.Live
  rw [update_self]
  exact fun h => h.2 (u32_zero 0)

theorem live_update_zero : Dir.Live (update dir s zero) t ↔ dir.Live t ∧ t ≠ s := by
  by_cases hne : t = s
  · subst hne
    simp [not_live_update_zero]
  · simp [live_update_of_ne hne, hne]

theorem owns_update_of_ne {i b : ℕ} (hne : t ≠ s) :
    Owns (update dir s e) inode t i b ↔ Owns dir inode t i b := by
  constructor
  · intro h
    exact ⟨(live_update_of_ne hne).mp h.live, h.place, (ino_update_of_ne hne) ▸ h.direct, h.nonzero⟩
  · intro h
    exact ⟨(live_update_of_ne hne).mpr h.live, h.place, (ino_update_of_ne hne).symm ▸ h.direct,
      h.nonzero⟩

end Dir

/-- Adding an entry for an inode that is marked, filled in and not in use. -/
theorem MetaOk.link (h : MetaOk n v) {s : ℕ} {e : Entry} (hs : s < direntCount)
    (hino : 2 ≤ e.ino ∧ e.ino ≤ maxInodes ∧ v.ib e.ino = true)
    (hfree : ∀ t, v.ent.Live t → v.ent.ino t ≠ e.ino) (hunused : ¬ v.ent.Live s)
    (hx : InodeOk n v.bb (v.inode e.ino)) (hdistinct : (v.inode e.ino).Distinct)
    (hown : ∀ i < directBlocks, (v.inode e.ino).direct i ≠ 0 →
      ∀ t j, ¬ Owns v.ent v.inode t j ((v.inode e.ino).direct i)) :
    MetaOk n { v with ent := update v.ent s e } := by
  have hne : ∀ t, v.ent.Live t → t ≠ s := by
    rintro t ht rfl
    exact hunused ht
  have hself : ∀ {i b}, Owns (update v.ent s e) v.inode s i b → (v.inode e.ino).direct i = b := by
    intro i b hb
    have hdirect := hb.direct
    rwa [ino_update_self] at hdirect
  refine ⟨h.bounds, h.super, h.root_mode, h.root_size, h.root_direct, h.reserved, ?_, ?_, ?_, ?_⟩
  · intro t ht
    dsimp only at ht ⊢
    by_cases hts : t = s
    · rw [hts, ino_update_self]
      exact hino
    · rw [ino_update_of_ne hts]
      exact h.ino t ((live_update_of_ne hts).mp ht)
  · intro t ht
    dsimp only at ht ⊢
    by_cases hts : t = s
    · rw [hts, ino_update_self]
      exact hx
    · rw [ino_update_of_ne hts]
      exact h.inode t ((live_update_of_ne hts).mp ht)
  · intro t u ht hu heq
    dsimp only at ht hu heq
    by_cases hts : t = s <;> by_cases hus : u = s
    · exact hts.trans hus.symm
    · rw [hts, ino_update_self, ino_update_of_ne hus] at heq
      exact absurd heq.symm (hfree u ((live_update_of_ne hus).mp hu))
    · rw [hus, ino_update_self, ino_update_of_ne hts] at heq
      exact absurd heq (hfree t ((live_update_of_ne hts).mp ht))
    · rw [ino_update_of_ne hts, ino_update_of_ne hus] at heq
      exact h.ino_inj t u ((live_update_of_ne hts).mp ht) ((live_update_of_ne hus).mp hu) heq
  · intro t u i j b ht hu
    dsimp only at ht hu
    by_cases hts : t = s <;> by_cases hus : u = s
    · subst hts hus
      have hi := hself ht
      have hj := hself hu
      exact ⟨rfl, hdistinct i ht.place j hu.place (hi.trans hj.symm) (hi ▸ ht.nonzero)⟩
    · subst hts
      have hi := hself ht
      exact absurd (hi ▸ (owns_update_of_ne hus).mp hu)
        (hown i ht.place (hi ▸ ht.nonzero) u j)
    · subst hus
      have hj := hself hu
      exact absurd (hj ▸ (owns_update_of_ne hts).mp ht)
        (hown j hu.place (hj ▸ hu.nonzero) t i)
    · exact h.block_inj t u i j b ((owns_update_of_ne hts).mp ht) ((owns_update_of_ne hus).mp hu)

/-- What a file owned stays with the others when an entry goes. -/
theorem Owns.of_update_zero {dir : Dir} {inode : ℕ → Inode} {s t i b : ℕ}
    (h : Owns (update dir s zero) inode t i b) : Owns dir inode t i b ∧ t ≠ s := by
  have hne := (live_update_zero.mp h.live).2
  exact ⟨(owns_update_of_ne hne).mp h, hne⟩

/-- Removing an entry. -/
theorem MetaOk.unlink (h : MetaOk n v) (s : ℕ) :
    MetaOk n { v with ent := update v.ent s zero } := by
  refine ⟨h.bounds, h.super, h.root_mode, h.root_size, h.root_direct, h.reserved, ?_, ?_, ?_, ?_⟩
  · intro t ht
    dsimp only at ht ⊢
    obtain ⟨ht, hne⟩ := live_update_zero.mp ht
    rw [ino_update_of_ne hne]
    exact h.ino t ht
  · intro t ht
    dsimp only at ht ⊢
    obtain ⟨ht, hne⟩ := live_update_zero.mp ht
    rw [ino_update_of_ne hne]
    exact h.inode t ht
  · intro t u ht hu heq
    dsimp only at ht hu heq
    obtain ⟨ht, hts⟩ := live_update_zero.mp ht
    obtain ⟨hu, hus⟩ := live_update_zero.mp hu
    rw [ino_update_of_ne hts, ino_update_of_ne hus] at heq
    exact h.ino_inj t u ht hu heq
  · intro t u i j b ht hu
    exact h.block_inj t u i j b ht.of_update_zero.1 hu.of_update_zero.1

end Mcsos.Mcsfs1
