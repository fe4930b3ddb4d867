import Mcsos.Mcsfs1.Steps

/-!
# The operations on the tables

`View.create`, `View.write`, `View.read` and `View.unlink` say what the operations do to the tables
of a filesystem with good metadata, and the theorems `runs_create`, `runs_write`, `runs_read` and
`runs_unlink` say that the programs do just that on a healthy device, with good metadata after every
single write.
-/

namespace Mcsos.Mcsfs1

open Bytes Function Prog

/-- The first slot without an entry. -/
def Dir.freeSlot (dir : Dir) : Option ℕ := (List.range direntCount).find? fun s => dir.ino s == 0

theorem freeSlot_eq (d : Disk) : freeSlot (d rootDirLba) = (view d).ent.freeSlot := by
  unfold freeSlot Dir.freeSlot
  simp only [direntIno_eq]

theorem freeSlot_some {dir : Dir} {s : ℕ} (h : dir.freeSlot = some s) :
    s < direntCount ∧ ¬ dir.Live s := by
  have hmem := List.mem_range.mp (List.mem_of_find?_eq_some h)
  have hzero := List.find?_some h
  exact ⟨hmem, fun hlive => hlive.2 (beq_iff_eq.mp hzero)⟩

/-- The directory block is determined by its entries. -/
theorem rootDir_eq_of_ent {d d' : Disk} (h : (view d).ent = (view d').ent) :
    d rootDirLba = d' rootDirLba := by
  apply ext_byte
  intro i hi
  have hslot := congrArg (fun e : Entry => e.byte (i % 32)) (congrFun h (i / 32))
  have hlt : i % 32 < 32 := Nat.mod_lt _ (by decide)
  simp only [view, byte_slice _ hlt, Nat.div_add_mod] at hslot
  exact hslot

/-! ## The entry and the inode of a new file -/

theorem dirent_ino {ino : ℕ} (name : CStr) (hino : ino < 2 ^ 32) :
    Entry.ino (dirent ino name name.length) = ino := by
  unfold Entry.ino dirent u32 setU32
  rw [word_splice_of_disjoint _ _ (by omega), word_splice_of_disjoint _ _ (by omega),
    word_splice_wordBytes _ _ (by decide)]
  exact Nat.mod_eq_of_lt hino

theorem dirent_name {name : CStr} (ino : ℕ) (hname : name.length ≤ maxName) :
    Entry.name (dirent ino name name.length) = name := by
  unfold Entry.name
  rw [CStr.ofMem_eq_iff _ hname]
  simp only [maxName] at hname ⊢
  unfold dirent
  constructor
  · intro i hi
    rw [byte_splice_of_inside _ _ (by omega) (by omega), Nat.add_sub_cancel_left]
  · intro hlt
    rw [byte_splice_of_outside _ _ (by omega), byte_splice_of_outside _ _ (by omega), setU32,
      byte_splice_of_outside _ _ (by omega), byte_zero]

theorem inodeOk_make {n b : ℕ} {bb : ℕ → Bool} (hlow : dataStartLba ≤ b) (hhigh : b < n)
    (hn : n ≤ 4096) (hmarked : bb b = true) : InodeOk n bb (Inode.make modeFile 0 b) := by
  have hb : (Inode.make modeFile 0 b).direct 0 = b := by
    rw [direct_make_zero, Nat.mod_eq_of_lt (by omega)]
  have hsize : (Inode.make modeFile 0 b).size = 0 := size_make modeFile 0 b
  refine ⟨mode_make modeFile 0 b, by rw [hsize]; exact Nat.zero_le _, fun i hi => ?_,
    fun i _ hne => ?_⟩
  · rw [hsize] at hi
    exact absurd hi (Nat.not_lt_zero _)
  · cases i with
    | zero =>
        rw [hb]
        exact ⟨hlow, hhigh, hmarked⟩
    | succ i => exact absurd (direct_make_succ modeFile 0 b i) hne

theorem distinct_make (mode size b : ℕ) : (Inode.make mode size b).Distinct := by
  intro i _ j _ heq hne
  cases i with
  | succ i => exact absurd (direct_make_succ mode size b i) hne
  | zero =>
      cases j with
      | zero => rfl
      | succ j => exact absurd (heq.trans (direct_make_succ mode size b j)) hne

/-! ## Create -/

/-- The tables with a new, empty file. -/
def View.link (v : View) (s ino b : ℕ) (name : CStr) : View :=
  { v with
    ib := update v.ib ino true
    bb := update v.bb b true
    inode := update v.inode ino (Inode.make modeFile 0 b)
    ent := update v.ent s (dirent ino name name.length) }

/-- `mcsfs1_create` when there is no entry of that name. -/
def View.createNew (n : ℕ) (name : CStr) (v : View) : Except Err Unit × View :=
  match v.ent.freeSlot, v.spare n with
  | some s, some (ino, b) => (.ok (), v.link s ino b name)
  | _, _ => (.error .nospc, v)

/-- `mcsfs1_create` -/
def View.create (n : ℕ) (beyond : UInt8) (name : CStr) (v : View) : Except Err Unit × View :=
  if ¬ ValidName name then (.error .nametoolong, v)
  else if (v.ent.find beyond name).isSome then (.error .exist, v)
  else v.createNew n name

variable {n : ℕ} {v : View}

theorem spare_eq_some_iff {ino b : ℕ} :
    v.spare n = some (ino, b) ↔ freeIno v.ib = some ino ∧ freeBlock n v.bb = some b := by
  unfold View.spare
  cases hino : freeIno v.ib with
  | none => simp
  | some j =>
      cases hblock : freeBlock n v.bb with
      | none => simp
      | some c => simp

theorem spare_some {ino b : ℕ} (h : v.spare n = some (ino, b)) :
    (2 ≤ ino ∧ ino ≤ maxInodes ∧ v.ib ino = false) ∧
      dataStartLba ≤ b ∧ b < n ∧ v.bb b = false := by
  obtain ⟨hino, hblock⟩ := spare_eq_some_iff.mp h
  exact ⟨freeIno_some hino, freeBlock_some hblock⟩

theorem MetaOk.take (h : MetaOk n v) (ino b : ℕ) : MetaOk n (v.take ino b) :=
  (h.markIno ino).markBlock b

/-- The inode is filled in after it is marked. -/
theorem MetaOk.takeInode (h : MetaOk n v) {ino b : ℕ} (hspare : v.spare n = some (ino, b))
    (x : Inode) :
    MetaOk n { v.take ino b with inode := update v.inode ino x } := by
  obtain ⟨⟨hlow, _, hunmarked⟩, _⟩ := spare_some hspare
  have hroot : ino ≠ rootIno := by
    simp only [rootIno]
    omega
  exact (h.take ino b).setFreeInode hroot (fun s hs => h.ne_of_unmarked hunmarked hs) x

/-- The entry is written after the inode. -/
theorem MetaOk.linkNew (h : MetaOk n v) {s ino b : ℕ} (hspare : v.spare n = some (ino, b))
    (hslot : v.ent.freeSlot = some s) (name : CStr) : MetaOk n (v.link s ino b name) := by
  obtain ⟨⟨hlow, hhigh, hunmarked⟩, hblow, hbhigh, hbunmarked⟩ := spare_some hspare
  obtain ⟨hs, hunused⟩ := freeSlot_some hslot
  have hm := h.takeInode hspare (Inode.make modeFile 0 b)
  have hino : Entry.ino (dirent ino name name.length) = ino :=
    dirent_ino name (hhigh.trans_lt (by decide))
  have hself : update v.inode ino (Inode.make modeFile 0 b) ino = Inode.make modeFile 0 b :=
    update_self _ _ _
  have hfree : ∀ t, v.ent.Live t → v.ent.ino t ≠ ino := fun t ht => h.ne_of_unmarked hunmarked ht
  have hinoMarked : (v.take ino b).ib ino = true := by
    dsimp only [View.take]
    rw [update_self]
  have hblockMarked : (v.take ino b).bb b = true := by
    dsimp only [View.take]
    rw [update_self]
  refine hm.link hs ?_ ?_ hunused ?_ ?_ ?_
  · rw [hino]
    exact ⟨hlow, hhigh, hinoMarked⟩
  · rw [hino]
    exact hfree
  · rw [hino]
    dsimp only
    rw [hself]
    exact inodeOk_make hblow hbhigh h.bounds.2 hblockMarked
  · rw [hino]
    dsimp only
    rw [hself]
    exact distinct_make _ _ _
  · rw [hino]
    dsimp only
    rw [hself]
    -- the one block of the new inode was not marked, so nobody owns it
    intro i _ hne t j hown
    cases i with
    | succ i => exact hne (direct_make_succ _ _ _ i)
    | zero =>
        have hdirect := hown.direct
        dsimp only [View.take] at hown hdirect
        rw [update_of_ne (hfree t hown.live)] at hdirect
        rw [direct_make_zero, Nat.mod_eq_of_lt (by have := h.bounds.2; omega)] at hdirect hown
        exact h.not_owns_of_unmarked hbunmarked t j ⟨hown.live, hown.place, hdirect, hown.nonzero⟩

section Programs

variable {dev : Blkdev} {d : Disk} {mnt : Mount}

theorem runs_createNew (name : CStr) (hm : MetaOk mnt.dev.blockCount (view d)) :
    Runs mnt.dev (createNew mnt name name.length) d ((view d).createNew mnt.dev.blockCount name).1
      ((view d).createNew mnt.dev.blockCount name).2 := by
  have hdir : rootDirLba < mnt.dev.blockCount := (by decide : 7 < 8).trans hm.bounds.1
  refine Runs.devRead_bind hdir ?_
  rw [freeSlot_eq]
  unfold View.createNew
  cases hslot : (view d).ent.freeSlot with
  | none => exact Does.fail hm
  | some s =>
      have halloc := runs_allocInodeBlock hm
      cases hspare : (view d).spare mnt.dev.blockCount with
      | none =>
          rw [hspare] at halloc
          exact Does.bind_error halloc
      | some x =>
          obtain ⟨ino, b⟩ := x
          rw [hspare] at halloc
          dsimp only at halloc ⊢
          obtain ⟨hlow, hhigh, _⟩ := (spare_some hspare).1
          refine Does.bind halloc fun d₁ hd₁ => ?_
          have htaken := hm.takeInode hspare (Inode.make modeFile 0 b)
          have hinode := runs_writeInode (d := d₁) (x := Inode.make modeFile 0 b)
            ⟨by omega, hhigh⟩ (hd₁ ▸ hm.take ino b) (hd₁ ▸ htaken)
          refine Does.bind hinode fun d₂ hd₂ => ?_
          have hview : view d₂ = { (view d).take ino b with
              inode := update (view d).inode ino (Inode.make modeFile 0 b) } := by
            rw [hd₂, hd₁]
            rfl
          -- the directory block read at the start is still the one on the disk
          have hsame : d rootDirLba = d₂ rootDirLba := rootDir_eq_of_ent (by rw [hview]; rfl)
          have hwritten : view (update d₂ rootDirLba (setDirent (d rootDirLba) s
              (dirent ino name name.length))) = (view d).link s ino b name := by
            rw [hsame, view_update_ent _ _ (freeSlot_some hslot).1, hview]
            rfl
          have hlinked := hm.linkNew hspare hslot name
          refine Does.bind (runs_devWrite hdir (hview ▸ htaken) hlinked hwritten) fun d₃ hd₃ => ?_
          rw [← hd₃]
          exact runs_devFlush (hd₃ ▸ hlinked)

theorem runs_create (beyond : UInt8) (name : CStr) (hm : MetaOk mnt.dev.blockCount (view d)) :
    Runs mnt.dev (create beyond mnt name) d ((view d).create mnt.dev.blockCount beyond name).1
      ((view d).create mnt.dev.blockCount beyond name).2 := by
  have hvalid := does_validName name hm
  unfold View.create
  by_cases hname : ValidName name
  · rw [if_pos hname] at hvalid
    rw [if_neg (not_not.mpr hname)]
    refine Does.bind hvalid fun d₁ hd₁ => ?_
    rw [← hd₁]
    have hm₁ : MetaOk mnt.dev.blockCount (view d₁) := hd₁ ▸ hm
    refine Does.bind (runs_findDirent beyond name hm₁).attempt fun d₂ hd₂ => ?_
    rw [View.search, if_pos hname, ← hd₂]
    have hm₂ : MetaOk mnt.dev.blockCount (view d₂) := hd₂ ▸ hm₁
    cases hfind : (view d₂).ent.find beyond name with
    | none => exact runs_createNew name hm₂
    | some s => exact Does.fail hm₂
  · rw [if_neg hname] at hvalid
    rw [if_pos hname]
    exact Does.bind_error hvalid

end Programs

/-! ## Unlink -/

theorem search_ok {beyond : UInt8} {name : CStr} {s ino : ℕ}
    (h : v.search beyond name = .ok (s, ino)) :
    ValidName name ∧ v.ent.find beyond name = some s ∧ v.ent.Live s ∧ ino = v.ent.ino s := by
  unfold View.search at h
  by_cases hname : ValidName name
  · rw [if_pos hname] at h
    cases hfind : v.ent.find beyond name with
    | none => rw [hfind] at h; cases h
    | some t =>
        rw [hfind] at h
        cases h
        exact ⟨hname, rfl, (Dir.find_some hfind).1, rfl⟩
  · rw [if_neg hname] at h
    cases h

/-- The tables without the file of slot `s`. -/
def View.drop (n : ℕ) (v : View) (s : ℕ) : View :=
  { v with
    ib := update v.ib (v.ent.ino s) false
    bb := clearedBlocks n (v.inode (v.ent.ino s)) v.bb
    ent := update v.ent s zero }

/-- `mcsfs1_unlink` -/
def View.unlink (n : ℕ) (beyond : UInt8) (name : CStr) (v : View) : Except Err Unit × View :=
  match v.search beyond name with
  | .error e => (.error e, v)
  | .ok (s, _) => (.ok (), v.drop n s)

/-- The inode is freed after the entry is gone. -/
theorem MetaOk.unlinkIno (h : MetaOk n v) {s : ℕ} (hs : v.ent.Live s) :
    MetaOk n { v with
      ib := update v.ib (v.ent.ino s) false
      ent := update v.ent s zero } := by
  refine (h.unlink s).setIb fun t ht => ?_
  obtain ⟨ht, hne⟩ := live_update_zero.mp ht
  have hino : v.ent.ino t ≠ v.ent.ino s := fun heq => hne (h.ino_inj t s ht hs heq)
  dsimp only
  rw [ino_update_of_ne hne, update_of_ne hino]
  exact (h.ino t ht).2.2

theorem clearedBlocks_of {x : Inode} {bb : ℕ → Bool} {b : ℕ} (hb : bb b = true)
    (hnot : ∀ i < directBlocks, x.direct i = b → b ≠ 0 → False) :
    clearedBlocks n x bb b = true := by
  unfold clearedBlocks
  rw [hb, Bool.true_and, decide_eq_true_eq]
  exact fun i hi hc => hnot i hi hc.1 hc.2.1

/-- The blocks are freed after the entry is gone. -/
theorem MetaOk.drop (h : MetaOk n v) {s : ℕ} (hs : v.ent.Live s) : MetaOk n (v.drop n s) := by
  refine (h.unlinkIno hs).setBb (fun b hb => ?_) fun t j b hown => ?_
  · refine clearedBlocks_of (h.reserved b hb) fun i hi heq hne => ?_
    have := (h.inode s hs).block i hi (heq ▸ hne)
    omega
  · obtain ⟨hown, hne⟩ := hown.of_update_zero
    refine clearedBlocks_of (hown.block h).2.2 fun i hi heq hb => ?_
    exact hne (h.block_inj t s j i b hown ⟨hs, hi, heq, hb⟩).1

section Programs

variable {dev : Blkdev} {d : Disk} {mnt : Mount}

theorem runs_unlink (beyond : UInt8) (name : CStr) (hm : MetaOk mnt.dev.blockCount (view d)) :
    Runs mnt.dev (unlink beyond mnt name) d ((view d).unlink mnt.dev.blockCount beyond name).1
      ((view d).unlink mnt.dev.blockCount beyond name).2 := by
  have hdir : rootDirLba < mnt.dev.blockCount := (by decide : 7 < 8).trans hm.bounds.1
  have hfind := runs_findDirent beyond name hm
  unfold View.unlink
  cases hsearch : (view d).search beyond name with
  | error e =>
      rw [hsearch] at hfind
      exact Does.bind_error hfind
  | ok x =>
      obtain ⟨s, ino⟩ := x
      obtain ⟨-, -, hs, rfl⟩ := search_ok hsearch
      rw [hsearch] at hfind
      refine Does.bind hfind fun d₁ hd₁ => ?_
      rw [← hd₁] at hs hm ⊢
      refine Does.bind (runs_readInode (hm.ino_range hs) hm) fun d₂ hd₂ => ?_
      rw [← hd₂] at hs hm ⊢
      refine Runs.devRead_bind hdir ?_
      -- the entry goes first, so that the marks cleared next belong to nobody
      have hgone := hm.unlink s
      refine Does.bind (runs_devWrite hdir hm hgone (view_update_ent d₂ zero hs.1)) fun d₃ hd₃ => ?_
      have hfreed := runs_freeInodeAndBlocks (d := d₃) (x := (view d₂).inode ((view d₂).ent.ino s))
        (hm.ino_range hs).2 (hd₃ ▸ hgone) (by rw [hd₃]; exact hm.unlinkIno hs)
        (by rw [hd₃]; exact hm.drop hs)
      rw [hd₃] at hfreed
      refine Does.bind hfreed fun d₄ hd₄ => ?_
      dsimp only
      rw [View.drop, ← hd₄]
      exact runs_devFlush (hd₄ ▸ hm.drop hs)

end Programs

/-! ## Read -/

/-- The content of the file with inode `x`. -/
def content (data : ℕ → Block) (x : Inode) : List UInt8 :=
  (List.range x.size).map fun k => (data (x.direct (k / blockSize))).byte (k % blockSize)

@[simp] theorem length_content (data : ℕ → Block) (x : Inode) :
    (content data x).length = x.size := by
  simp [content]

/-- `mcsfs1_read` -/
def View.read (beyond : UInt8) (name : CStr) (cap : ℕ) (v : View) : Except Err (List UInt8 × ℕ) :=
  match v.search beyond name with
  | .error e => .error e
  | .ok (_, ino) =>
      if cap < (v.inode ino).size then .error .range
      else .ok (content v.data (v.inode ino), (v.inode ino).size)

section Programs

variable {dev : Blkdev} {d : Disk} {mnt : Mount} {J : View → Prop}

/-- The bytes of `remain` bytes of a file from place `i` on. -/
theorem range_map_chunk (f : ℕ → ℕ → UInt8) (i : ℕ) {remain chunk : ℕ}
    (hchunk : chunk = if blockSize < remain then blockSize else remain) :
    (List.range remain).map (fun k => f (i + k / blockSize) (k % blockSize)) =
      (List.range chunk).map (f i) ++
        (List.range (remain - chunk)).map fun k => f (i + 1 + k / blockSize) (k % blockSize) := by
  simp only [blockSize] at *
  have hle : chunk ≤ remain := by
    split_ifs at hchunk <;> omega
  have hsplit : remain = chunk + (remain - chunk) := by omega
  conv_lhs => rw [hsplit, List.range_add, List.map_append, List.map_map]
  congr 1
  · apply List.map_congr_left
    intro k hk
    have hk := List.mem_range.mp hk
    have hlt : k < 512 := by split_ifs at hchunk <;> omega
    rw [Nat.div_eq_of_lt hlt, Nat.mod_eq_of_lt hlt, Nat.add_zero]
  · apply List.map_congr_left
    intro k hk
    have hk := List.mem_range.mp hk
    have hfull : chunk = 512 := by split_ifs at hchunk <;> omega
    rw [Function.comp_apply, hfull]
    congr 1 <;> omega

theorem chunk_rest {i j remain : ℕ} (h : blockSize * j < blockSize * (i + 1) +
    (remain - if blockSize < remain then blockSize else remain)) (hpos : i + 1 ≤ j) :
    blockSize * j < blockSize * i + remain := by
  simp only [blockSize] at h ⊢
  split_ifs at h <;> omega

theorem does_readData (hJ : J (view d)) {x : Inode} :
    ∀ {r i remain : ℕ}, remain ≤ blockSize * r →
      (∀ j, i ≤ j → blockSize * j < blockSize * i + remain →
        dataStartLba ≤ x.direct j ∧ x.direct j < dev.blockCount) →
      Does view J (readData dev x r i remain) d
        (.ok ((List.range remain).map fun k =>
          ((view d).data (x.direct (i + k / blockSize))).byte (k % blockSize))) (view d) := by
  intro r
  induction r generalizing d with
  | zero =>
      intro i remain hremain _
      obtain rfl : remain = 0 := by omega
      exact Does.ret hJ
  | succ r ih =>
      intro i remain hremain hblocks
      unfold readData
      by_cases hzero : remain = 0
      · subst hzero
        exact Does.ret hJ
      · rw [if_neg hzero]
        obtain ⟨hlow, hhigh⟩ := hblocks i (Nat.le_refl i) (by omega)
        have hdata := view_data d hlow
        simp only [dataStartLba, blockSize] at hlow hremain hblocks
        refine Runs.failIf_bind (by omega) (Runs.devRead_bind hhigh ?_)
        -- the rest of the file starts at the next place
        have hrest := @ih d hJ (i + 1) (remain - if blockSize < remain then blockSize else remain)
          (by simp only [blockSize]; split_ifs <;> omega) (by
            intro j hij hj
            exact hblocks j (Nat.le_of_succ_le hij) (chunk_rest hj hij))
        refine Does.bind hrest fun d' hd' => ?_
        rw [range_map_chunk (fun j o => ((view d).data (x.direct j)).byte o) i rfl, hdata]
        rw [← hd'] at hJ ⊢
        exact Does.ret hJ

/-- Reading relies on the inodes of the entries only. -/
theorem does_read (beyond : UInt8) (name : CStr) (cap : ℕ) (hn : dataStartLba < mnt.dev.blockCount)
    (hino : ∀ s, (view d).ent.Live s → 1 ≤ (view d).ent.ino s ∧ (view d).ent.ino s ≤ maxInodes)
    (hinode : ∀ s, (view d).ent.Live s →
      InodeOk mnt.dev.blockCount (view d).bb ((view d).inode ((view d).ent.ino s)))
    (hJ : J (view d)) :
    Does view J (read beyond mnt name cap) d ((view d).read beyond name cap) (view d) := by
  have hfind := does_findDirent beyond name hn hJ
  unfold View.read
  cases hsearch : (view d).search beyond name with
  | error e =>
      rw [hsearch] at hfind
      exact Does.bind_error hfind
  | ok x =>
      obtain ⟨s, ino⟩ := x
      obtain ⟨-, -, hs, rfl⟩ := search_ok hsearch
      rw [hsearch] at hfind
      refine Does.bind hfind fun d₁ hd₁ => ?_
      rw [← hd₁] at hs hino hinode hJ ⊢
      refine Does.bind (does_readInode (hino s hs) hn hJ) fun d₂ hd₂ => ?_
      rw [← hd₂] at hs hinode hJ ⊢
      have hx := hinode s hs
      refine Runs.failIf_bind (not_not.mpr hx.mode) ?_
      dsimp only
      by_cases hcap : cap < ((view d₂).inode ((view d₂).ent.ino s)).size
      · rw [if_pos hcap]
        exact Runs.failIf_error hcap hJ
      · rw [if_neg hcap]
        refine Runs.failIf_bind hcap ?_
        have hsize : ((view d₂).inode ((view d₂).ent.ino s)).size ≤ blockSize * directBlocks :=
          hx.size
        have hdata := does_readData (x := (view d₂).inode ((view d₂).ent.ino s)) (i := 0) hJ hsize
          (by
            intro j _ hj
            rw [Nat.mul_zero, Nat.zero_add] at hj
            have hlt : j < directBlocks := by
              have := hx.size
              simp only [directBlocks, blockSize] at *
              omega
            have hb := hx.block j hlt (hx.covered j hj)
            exact ⟨hb.1, hb.2.1⟩)
        refine Does.bind hdata fun d₃ hd₃ => ?_
        have hsame : (List.range ((view d₂).inode ((view d₂).ent.ino s)).size).map (fun k =>
            ((view d₂).data (((view d₂).inode ((view d₂).ent.ino s)).direct
              (0 + k / blockSize))).byte (k % blockSize)) =
            content (view d₂).data ((view d₂).inode ((view d₂).ent.ino s)) := by
          simp only [Nat.zero_add, content]
        rw [hsame]
        rw [← hd₃] at hJ ⊢
        exact Does.ret hJ

theorem runs_read (beyond : UInt8) (name : CStr) (cap : ℕ)
    (hm : MetaOk mnt.dev.blockCount (view d)) :
    Runs mnt.dev (read beyond mnt name cap) d ((view d).read beyond name cap) (view d) :=
  does_read beyond name cap hm.bounds.1 (fun _ hs => hm.ino_range hs) hm.inode hm

end Programs

end Mcsos.Mcsfs1
