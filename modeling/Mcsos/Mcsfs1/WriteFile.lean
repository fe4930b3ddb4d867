import Mcsos.Mcsfs1.Tables

/-!
# Writing a file

`mcsfs1_write` has two loops.  The first one gives the file the blocks it misses; `Allocated` says
what the inode and the bitmap are afterwards.  The second one fills the blocks with the data.  Only
then the inode is written, so that up to this moment the new blocks belong to nobody.
-/

namespace Mcsos.Mcsfs1

open Bytes Function Prog

/-! ## The allocation loop -/

/-- The loop over `direct[i], …, direct[i + r - 1]`, on the inode and the block bitmap. -/
def allocBlocks (n : ℕ) : (r i : ℕ) → Inode → (ℕ → Bool) → Option Inode × (ℕ → Bool)
  | 0, _, x, bb => (some x, bb)
  | r + 1, i, x, bb =>
      if x.direct i = 0 then
        match freeBlock n bb with
        | none => (none, bb)
        | some b => allocBlocks n r (i + 1) (x.setDirect i b) (update bb b true)
      else allocBlocks n r (i + 1) x bb

/-- The inode `y` is `x` with blocks in the places `lo, …, hi - 1`, those that were missing being
fresh ones; `bb'` is the bitmap `bb` with the fresh blocks marked. -/
structure Allocated (n : ℕ) (bb : ℕ → Bool) (x y : Inode) (bb' : ℕ → Bool) (lo hi : ℕ) : Prop where
  mode : y.mode = x.mode
  old : ∀ j, x.direct j ≠ 0 → y.direct j = x.direct j
  other : ∀ j, j < lo ∨ hi ≤ j → y.direct j = x.direct j
  filled : ∀ j, lo ≤ j → j < hi → y.direct j ≠ 0
  fresh : ∀ j, x.direct j = 0 → y.direct j ≠ 0 →
    dataStartLba ≤ y.direct j ∧ y.direct j < n ∧ bb (y.direct j) = false
  inj : ∀ j k, x.direct j = 0 → x.direct k = 0 → y.direct j = y.direct k → y.direct j ≠ 0 → j = k
  marked : ∀ b, bb' b = true ↔
    bb b = true ∨ ∃ j < directBlocks, x.direct j = 0 ∧ y.direct j = b ∧ b ≠ 0

theorem allocated_self (n : ℕ) (bb : ℕ → Bool) (x : Inode) (i : ℕ) : Allocated n bb x x bb i i := by
  refine ⟨rfl, fun _ _ => rfl, fun _ _ => rfl, fun j h h' => by omega, fun j h h' => absurd h h',
    fun j k h _ _ h' => absurd h h', fun b => ⟨Or.inl, ?_⟩⟩
  rintro (h | ⟨j, _, h, rfl, hne⟩)
  · exact h
  · exact absurd h hne

theorem Allocated.skip {n : ℕ} {bb bb' : ℕ → Bool} {x y : Inode} {i hi : ℕ}
    (h : Allocated n bb x y bb' (i + 1) hi) (hi0 : x.direct i ≠ 0) :
    Allocated n bb x y bb' i hi := by
  refine ⟨h.mode, h.old, fun j hj => h.other j (by omega), fun j hlow hhigh => ?_, h.fresh, h.inj,
    h.marked⟩
  by_cases hj : j = i
  · rw [hj, h.old i hi0]
    exact hi0
  · exact h.filled j (by omega) hhigh

/-- One fresh block in front of the others. -/
theorem Allocated.cons {n : ℕ} {bb bb' : ℕ → Bool} {x y : Inode} {i hi b : ℕ}
    (h : Allocated n (update bb b true) (x.setDirect i b) y bb' (i + 1) hi) (hlt : i < hi)
    (hi8 : i < directBlocks) (hi0 : x.direct i = 0) (hlow : dataStartLba ≤ b) (hhigh : b < n)
    (hn : n ≤ 4096) (hfree : bb b = false) : Allocated n bb x y bb' i hi := by
  simp only [dataStartLba] at hlow
  have hself : (x.setDirect i b).direct i = b := direct_setDirect x b hi8 (by omega)
  have hother : ∀ {j}, j ≠ i → (x.setDirect i b).direct j = x.direct j := fun hj =>
    direct_setDirect_of_ne x b hj
  have hy : y.direct i = b := (h.old i (by rw [hself]; omega)).trans hself
  -- the blocks that come later were free with `b` already taken
  have hlater : ∀ {j}, j ≠ i → x.direct j = 0 → y.direct j ≠ 0 →
      dataStartLba ≤ y.direct j ∧ y.direct j < n ∧ bb (y.direct j) = false ∧ y.direct j ≠ b := by
    intro j hj h0 hne
    obtain ⟨h1, h2, h3⟩ := h.fresh j ((hother hj).trans h0) hne
    have hb : y.direct j ≠ b := by
      intro heq
      rw [heq, update_self] at h3
      cases h3
    rw [update_of_ne hb] at h3
    exact ⟨h1, h2, h3, hb⟩
  constructor
  · rw [h.mode, mode_setDirect]
  · intro j hj
    have hji : j ≠ i := by
      rintro rfl
      exact hj hi0
    rw [h.old j (by rwa [hother hji]), hother hji]
  · intro j hj
    have hji : j ≠ i := by omega
    rw [h.other j (by omega), hother hji]
  · intro j hlow' hhigh'
    by_cases hji : j = i
    · rw [hji, hy]
      omega
    · exact h.filled j (by omega) hhigh'
  · intro j h0 hne
    by_cases hji : j = i
    · rw [hji, hy]
      exact ⟨hlow, hhigh, hfree⟩
    · obtain ⟨h1, h2, h3, _⟩ := hlater hji h0 hne
      exact ⟨h1, h2, h3⟩
  · intro j k hj0 hk0 heq hne
    by_cases hji : j = i <;> by_cases hki : k = i
    · omega
    · rw [hji, hy] at heq
      exact absurd heq.symm (hlater hki hk0 (by omega)).2.2.2
    · rw [hki, hy] at heq
      exact absurd heq (hlater hji hj0 hne).2.2.2
    · exact h.inj j k ((hother hji).trans hj0) ((hother hki).trans hk0) heq hne
  · intro c
    rw [h.marked]
    by_cases hc : c = b
    · subst hc
      rw [update_self]
      exact ⟨fun _ => Or.inr ⟨i, hi8, hi0, hy, by omega⟩, fun _ => Or.inl rfl⟩
    · rw [update_of_ne hc]
      refine or_congr_right ⟨?_, ?_⟩
      · rintro ⟨j, hj8, hj0, hj, hne⟩
        have hji : j ≠ i := by
          rintro rfl
          rw [hself] at hj0
          omega
        exact ⟨j, hj8, (hother hji) ▸ hj0, hj, hne⟩
      · rintro ⟨j, hj8, hj0, hj, hne⟩
        have hji : j ≠ i := by
          rintro rfl
          exact hc (hj.symm.trans hy)
        exact ⟨j, hj8, (hother hji).trans hj0, hj, hne⟩

theorem allocBlocks_some {n : ℕ} (hn : n ≤ 4096) {y : Inode} {bb' : ℕ → Bool} :
    ∀ {r i : ℕ} {x : Inode} {bb : ℕ → Bool}, i + r ≤ directBlocks →
      allocBlocks n r i x bb = (some y, bb') → Allocated n bb x y bb' i (i + r) := by
  intro r
  induction r with
  | zero =>
      intro i x bb _ h
      cases h
      exact allocated_self n _ _ i
  | succ r ih =>
      intro i x bb hbound h
      have hindex : i + (r + 1) = i + 1 + r := by omega
      rw [hindex] at hbound ⊢
      unfold allocBlocks at h
      by_cases hzero : x.direct i = 0
      · rw [if_pos hzero] at h
        cases hblock : freeBlock n bb with
        | none => rw [hblock] at h; cases h
        | some b =>
            rw [hblock] at h
            obtain ⟨hlow, hhigh, hfree⟩ := freeBlock_some hblock
            exact (ih hbound h).cons (by omega) (by omega) hzero hlow hhigh hn hfree
      · rw [if_neg hzero] at h
        exact (ih hbound h).skip hzero

/-- Also a failing allocation only adds marks. -/
theorem allocBlocks_grows {n : ℕ} {b : ℕ} :
    ∀ {r i : ℕ} {x : Inode} {bb : ℕ → Bool}, bb b = true → (allocBlocks n r i x bb).2 b = true := by
  intro r
  induction r with
  | zero => intro i x bb h; exact h
  | succ r ih =>
      intro i x bb h
      unfold allocBlocks
      by_cases hzero : x.direct i = 0
      · rw [if_pos hzero]
        cases freeBlock n bb with
        | none => exact h
        | some c => exact ih (update_true_of h)
      · rw [if_neg hzero]
        exact ih h

/-! ## The data loop -/

/-- Block `k` of a file with the bytes `data`. -/
def fileBlock (data : List UInt8) (k : ℕ) : Block :=
  dataBlock data (blockSize * k) (min blockSize (data.length - blockSize * k))

/-- The data blocks after the loop over `direct[i], …, direct[i + r - 1]`. -/
def putBlocks (x : Inode) (data : List UInt8) : (r i : ℕ) → (ℕ → Block) → ℕ → Block
  | 0, _, f => f
  | r + 1, i, f => putBlocks x data r (i + 1) (update f (x.direct i) (fileBlock data i))

theorem putBlocks_of_ne {x : Inode} {data : List UInt8} {b : ℕ} :
    ∀ {r i : ℕ} {f : ℕ → Block}, (∀ j, i ≤ j → j < i + r → x.direct j ≠ b) →
      putBlocks x data r i f b = f b := by
  intro r
  induction r with
  | zero => intro i f _; rfl
  | succ r ih =>
      intro i f h
      have hhead : b ≠ x.direct i := (h i (Nat.le_refl i) (by omega)).symm
      rw [putBlocks, ih fun j hj hj' => h j (by omega) (by omega), update_of_ne hhead]

/-- If the places hold different blocks, each gets its part of the data. -/
theorem putBlocks_direct {x : Inode} {data : List UInt8} {j : ℕ} :
    ∀ {r i : ℕ} {f : ℕ → Block}, i ≤ j → j < i + r →
      (∀ k, i ≤ k → k < i + r → x.direct k = x.direct j → k = j) →
      putBlocks x data r i f (x.direct j) = fileBlock data j := by
  intro r
  induction r with
  | zero => intro i f h h'; omega
  | succ r ih =>
      intro i f hlow hhigh hdistinct
      rw [putBlocks]
      by_cases hj : j = i
      · subst hj
        rw [putBlocks_of_ne, update_self]
        intro k hk hk' heq
        have := hdistinct k (by omega) (by omega) heq
        omega
      · exact ih (by omega) (by omega) fun k hk hk' => hdistinct k (by omega) (by omega)

/-- The block the source fills at step `i`, where `written` is `512 * i` or the end of the data. -/
theorem dataBlock_eq (data : List UInt8) (i : ℕ) :
    dataBlock data (min (blockSize * i) data.length)
      (if blockSize < data.length - min (blockSize * i) data.length then blockSize
        else data.length - min (blockSize * i) data.length) = fileBlock data i := by
  unfold fileBlock
  simp only [blockSize]
  by_cases hle : 512 * i ≤ data.length
  · rw [Nat.min_eq_left hle]
    congr 1
    split_ifs <;> omega
  · -- past the end both are the zero block
    have hnone : ∀ w, dataBlock data w 0 = zero := by
      intro w
      apply ext_byte
      intro j hj
      rw [dataBlock, byte_splice_of_outside _ _ (by omega)]
    have h1 : (if 512 < data.length - min (512 * i) data.length then 512
        else data.length - min (512 * i) data.length) = 0 := by
      split_ifs <;> omega
    have h2 : min 512 (data.length - 512 * i) = 0 := by omega
    rw [h1, h2, hnone, hnone]

section Programs

variable {dev : Blkdev} {d : Disk}

theorem runs_allocDirect :
    ∀ {r i : ℕ} {x : Inode} {d : Disk}, MetaOk dev.blockCount (view d) →
      Runs dev (allocDirect dev r i x) d
        (match (allocBlocks dev.blockCount r i x (view d).bb).1 with
          | some y => .ok y
          | none => .error .nospc)
        { view d with bb := (allocBlocks dev.blockCount r i x (view d).bb).2 } := by
  intro r
  induction r with
  | zero => intro i x d hm; exact Does.ret hm
  | succ r ih =>
      intro i x d hm
      unfold allocDirect allocBlocks
      by_cases hzero : x.direct i = 0
      · rw [if_pos hzero, if_pos hzero]
        have halloc := runs_allocDataBlock hm
        cases hblock : freeBlock dev.blockCount (view d).bb with
        | none =>
            rw [hblock] at halloc
            exact Does.bind_error halloc
        | some b =>
            rw [hblock] at halloc
            refine Does.bind halloc fun d' hd' => ?_
            dsimp only at hd' ⊢
            have hrest := ih (i := i + 1) (x := x.setDirect i b) (hd' ▸ hm.markBlock b)
            rw [hd'] at hrest
            exact hrest
      · rw [if_neg hzero, if_neg hzero]
        exact ih hm

theorem runs_writeData (x : Inode) (data : List UInt8) :
    ∀ {r i : ℕ} {d : Disk}, MetaOk dev.blockCount (view d) →
      (∀ j, i ≤ j → j < i + r → dataStartLba ≤ x.direct j ∧ x.direct j < dev.blockCount) →
      Runs dev (writeData dev x data r i (min (blockSize * i) data.length)) d (.ok ())
        { view d with data := putBlocks x data r i (view d).data } := by
  intro r
  induction r with
  | zero => intro i d hm _; exact Does.ret hm
  | succ r ih =>
      intro i d hm hblocks
      obtain ⟨hlow, hhigh⟩ := hblocks i (Nat.le_refl i) (by omega)
      have hnext : min (blockSize * i) data.length +
          (if blockSize < data.length - min (blockSize * i) data.length then blockSize
            else data.length - min (blockSize * i) data.length) =
          min (blockSize * (i + 1)) data.length := by
        simp only [blockSize]
        split_ifs <;> omega
      unfold writeData
      dsimp only
      rw [dataBlock_eq, hnext]
      refine Does.bind (runs_devWrite hhigh hm (hm.setData _) (view_update_data d _ hlow))
        fun d' hd' => ?_
      have hrest := ih (i := i + 1) (d := d') (hd' ▸ hm.setData _)
        fun j hj hj' => hblocks j (by omega) (by omega)
      rw [hd'] at hrest
      exact hrest

end Programs

/-! ## The whole operation -/

theorem blocksNeeded_le {len : ℕ} (h : len ≤ directBlocks * blockSize) :
    blocksNeeded len ≤ directBlocks := by
  simp only [blocksNeeded, directBlocks, blockSize] at *
  split_ifs <;> omega

/-- The needed blocks cover the data. -/
theorem lt_blocksNeeded {len i : ℕ} (h : blockSize * i < len) : i < blocksNeeded len := by
  simp only [blocksNeeded, blockSize] at *
  split_ifs <;> omega

/-- The allocation loop of a write that succeeds. -/
theorem allocBlocks_needed {n len : ℕ} {bb bb' : ℕ → Bool} {x y : Inode} (hn : n ≤ 4096)
    (hlen : len ≤ directBlocks * blockSize)
    (halloc : allocBlocks n (blocksNeeded len) 0 x bb = (some y, bb')) :
    Allocated n bb x y bb' 0 (blocksNeeded len) := by
  have hbound : 0 + blocksNeeded len ≤ directBlocks := by
    rw [Nat.zero_add]
    exact blocksNeeded_le hlen
  have ha := allocBlocks_some hn hbound halloc
  rwa [Nat.zero_add] at ha

/-- The tables with `data` in the file of slot `s`, where `y` is its inode after allocation and `bb`
the bitmap. -/
def View.store (v : View) (s : ℕ) (data : List UInt8) (y : Inode) (bb : ℕ → Bool) : View :=
  { v with
    bb := bb
    data := putBlocks y data (blocksNeeded data.length) 0 v.data
    inode := update v.inode (v.ent.ino s) (y.setSize data.length) }

/-- `mcsfs1_write` of `data` to the file of slot `s`. -/
def View.put (n : ℕ) (s : ℕ) (data : List UInt8) (v : View) : Except Err Unit × View :=
  match allocBlocks n (blocksNeeded data.length) 0 (v.inode (v.ent.ino s)) v.bb with
  | (none, bb) => (.error .nospc, { v with bb := bb })
  | (some y, bb) => (.ok (), v.store s data y bb)

/-- `mcsfs1_write` -/
def View.write (n : ℕ) (beyond : UInt8) (name : CStr) (data : List UInt8) (v : View) :
    Except Err Unit × View :=
  if directBlocks * blockSize < data.length then (.error .range, v)
  else
    match v.search beyond name with
    | .error e => (.error e, v)
    | .ok (s, _) => v.put n s data

variable {n : ℕ} {v : View} {s : ℕ} {data : List UInt8}

theorem MetaOk.grow (h : MetaOk n v) (r : ℕ) (x : Inode) :
    MetaOk n { v with bb := (allocBlocks n r 0 x v.bb).2 } :=
  h.setBb (fun b hb => allocBlocks_grows (h.reserved b hb))
    fun _ _ _ hown => allocBlocks_grows (hown.block h).2.2

section Allocated

variable {y : Inode} {bb : ℕ → Bool} {r : ℕ} {x : Inode}

/-- The blocks of an allocated inode are data blocks, marked in the new bitmap. -/
theorem Allocated.block (ha : Allocated n v.bb x y bb 0 r) (hx : InodeOk n v.bb x) {i : ℕ}
    (hi : i < directBlocks) (hne : y.direct i ≠ 0) :
    dataStartLba ≤ y.direct i ∧ y.direct i < n ∧ bb (y.direct i) = true := by
  by_cases h0 : x.direct i = 0
  · obtain ⟨hlow, hhigh, _⟩ := ha.fresh i h0 hne
    exact ⟨hlow, hhigh, (ha.marked _).mpr (Or.inr ⟨i, hi, h0, rfl, hne⟩)⟩
  · rw [ha.old i h0]
    obtain ⟨hlow, hhigh, hmarked⟩ := hx.block i hi h0
    exact ⟨hlow, hhigh, (ha.marked _).mpr (Or.inl hmarked)⟩

theorem Allocated.inodeOk (ha : Allocated n v.bb x y bb 0 (blocksNeeded data.length))
    (hx : InodeOk n v.bb x) (hlen : data.length ≤ directBlocks * blockSize) :
    InodeOk n bb (y.setSize data.length) := by
  have hsize : (y.setSize data.length).size = data.length :=
    size_setSize y _ (hlen.trans_lt (by decide))
  refine ⟨?_, ?_, fun i hi => ?_, fun i hi hne => ?_⟩
  · rw [mode_setSize, ha.mode, hx.mode]
  · rw [hsize]
    exact hlen
  · rw [hsize] at hi
    rw [direct_setSize]
    exact ha.filled i (Nat.zero_le i) (lt_blocksNeeded hi)
  · rw [direct_setSize] at hne ⊢
    exact ha.block hx hi hne

theorem Allocated.distinct (ha : Allocated n v.bb x y bb 0 r) (hx : InodeOk n v.bb x)
    (hdistinct : x.Distinct) : y.Distinct := by
  -- a fresh block is not an old one: the old one was marked
  have hmixed : ∀ {i j}, i < directBlocks → x.direct i ≠ 0 → x.direct j = 0 → y.direct j ≠ 0 →
      y.direct i ≠ y.direct j := by
    intro i j hi h0 hj0 hne heq
    have hmarked := (hx.block i hi h0).2.2
    rw [← ha.old i h0, heq, (ha.fresh j hj0 hne).2.2] at hmarked
    cases hmarked
  intro i hi j hj heq hne
  by_cases hi0 : x.direct i = 0 <;> by_cases hj0 : x.direct j = 0
  · exact ha.inj i j hi0 hj0 heq hne
  · exact absurd heq.symm (hmixed hj hj0 hi0 hne)
  · exact absurd heq (hmixed hi hi0 hj0 (heq ▸ hne))
  · rw [ha.old i hi0] at heq hne
    rw [ha.old j hj0] at heq
    exact hdistinct i hi j hj heq hne

end Allocated

/-- The inode is written after everything it refers to. -/
theorem MetaOk.put (h : MetaOk n v) (hs : v.ent.Live s) {y : Inode} {bb : ℕ → Bool}
    (hlen : data.length ≤ directBlocks * blockSize)
    (halloc : allocBlocks n (blocksNeeded data.length) 0 (v.inode (v.ent.ino s)) v.bb =
      (some y, bb)) : MetaOk n (v.store s data y bb) := by
  have hx := h.inode s hs
  have ha := allocBlocks_needed h.bounds.2 hlen halloc
  have hgrown := h.grow (blocksNeeded data.length) (v.inode (v.ent.ino s))
  rw [halloc] at hgrown
  refine (hgrown.setData _).rewriteInode hs (ha.inodeOk hx hlen) ?_ ?_
  · intro i hi j hj heq hne
    rw [direct_setSize, direct_setSize] at heq
    rw [direct_setSize] at hne
    exact ha.distinct hx (h.distinct hs) i hi j hj heq hne
  · intro i hi hne t j hown
    rw [direct_setSize] at hne hown
    dsimp only at hown
    by_cases h0 : (v.inode (v.ent.ino s)).direct i = 0
    · exact absurd hown (h.not_owns_of_unmarked (ha.fresh i h0 hne).2.2 t j)
    · rw [ha.old i h0] at hown
      exact (h.block_inj t s j i _ hown ⟨hs, hi, rfl, h0⟩).1

/-- A write runs out of blocks, with some more of them marked, or it stores the data. -/
theorem put_cases (h : MetaOk n v) (s : ℕ) (hlen : data.length ≤ directBlocks * blockSize) :
    (∃ bb, allocBlocks n (blocksNeeded data.length) 0 (v.inode (v.ent.ino s)) v.bb = (none, bb) ∧
        v.put n s data = (.error .nospc, { v with bb := bb })) ∨
      ∃ y bb, Allocated n v.bb (v.inode (v.ent.ino s)) y bb 0 (blocksNeeded data.length) ∧
        v.put n s data = (.ok (), v.store s data y bb) := by
  unfold View.put
  cases halloc : allocBlocks n (blocksNeeded data.length) 0 (v.inode (v.ent.ino s)) v.bb with
  | mk result bb =>
      cases result with
      | none => exact Or.inl ⟨bb, rfl, rfl⟩
      | some y =>
          have ha := allocBlocks_needed h.bounds.2 hlen halloc
          exact Or.inr ⟨y, bb, ha, rfl⟩

section Programs

variable {dev : Blkdev} {d : Disk} {mnt : Mount}

/-- `mcsfs1_write`, after it has read the inode of the file in slot `s`. -/
theorem runs_put (hm : MetaOk dev.blockCount (view d)) (hs : (view d).ent.Live s)
    (hlen : data.length ≤ directBlocks * blockSize) :
    Runs dev (do
        let inode ← allocDirect dev (blocksNeeded data.length) 0
          ((view d).inode ((view d).ent.ino s))
        writeData dev inode data (blocksNeeded data.length) 0 0
        writeInode dev ((view d).ent.ino s) (inode.setSize data.length)
        devFlush dev) d
      ((view d).put dev.blockCount s data).1 ((view d).put dev.blockCount s data).2 := by
  have hloop := runs_allocDirect (r := blocksNeeded data.length) (i := 0)
    (x := (view d).inode ((view d).ent.ino s)) hm
  unfold View.put
  cases halloc : allocBlocks dev.blockCount (blocksNeeded data.length) 0
      ((view d).inode ((view d).ent.ino s)) (view d).bb with
  | mk result bb =>
      rw [halloc] at hloop
      cases result with
      | none => exact Does.bind_error hloop
      | some y =>
          have ha := allocBlocks_needed hm.bounds.2 hlen halloc
          have hgrown := hm.grow (blocksNeeded data.length) ((view d).inode ((view d).ent.ino s))
          rw [halloc] at hgrown
          -- the new blocks are marked, and belong to nobody yet
          refine Does.bind hloop fun d₁ hd₁ => ?_
          have hblocks : ∀ j, 0 ≤ j → j < 0 + blocksNeeded data.length →
              dataStartLba ≤ y.direct j ∧ y.direct j < dev.blockCount := by
            intro j hlow hhigh
            rw [Nat.zero_add] at hhigh
            obtain ⟨hstart, hend, _⟩ := ha.block (hm.inode s hs)
              (hhigh.trans_le (blocksNeeded_le hlen)) (ha.filled j hlow hhigh)
            exact ⟨hstart, hend⟩
          have hdata := runs_writeData y data (hd₁ ▸ hgrown) hblocks
          rw [hd₁, Nat.mul_zero, Nat.zero_min] at hdata
          refine Does.bind hdata fun d₂ hd₂ => ?_
          -- the inode refers to them from here on
          have hput := hm.put hs hlen halloc
          have hinode := runs_writeInode (d := d₂) (x := y.setSize data.length)
            (hm.ino_range hs) (hd₂ ▸ hgrown.setData _) (by rw [hd₂]; exact hput)
          rw [hd₂] at hinode
          refine Does.bind hinode fun d₃ hd₃ => ?_
          have hstored : view d₃ = (view d).store s data y bb := hd₃
          dsimp only
          rw [← hstored] at hput ⊢
          exact runs_devFlush hput

theorem runs_write (beyond : UInt8) (name : CStr) (data : List UInt8)
    (hm : MetaOk mnt.dev.blockCount (view d)) :
    Runs mnt.dev (write beyond mnt name data) d
      ((view d).write mnt.dev.blockCount beyond name data).1
      ((view d).write mnt.dev.blockCount beyond name data).2 := by
  unfold View.write
  by_cases hlen : directBlocks * blockSize < data.length
  · rw [if_pos hlen]
    exact Runs.failIf_error hlen hm
  rw [if_neg hlen]
  refine Runs.failIf_bind hlen ?_
  have hfind := runs_findDirent beyond name hm
  cases hsearch : (view d).search beyond name with
  | error e =>
      rw [hsearch] at hfind
      exact Does.bind_error hfind
  | ok x =>
      obtain ⟨s, ino⟩ := x
      obtain ⟨-, -, hs, rfl⟩ := search_ok hsearch
      rw [hsearch] at hfind
      refine Does.bind hfind fun d₁ hd₁ => ?_
      rw [← hd₁] at hs hm ⊢
      refine Does.bind (runs_readInode (hm.ino_range hs) hm) fun d₂ hd₂ => ?_
      rw [← hd₂] at hs hm ⊢
      refine Runs.failIf_bind (not_not.mpr (hm.inode s hs).mode) ?_
      exact runs_put hm hs (Nat.le_of_not_lt hlen)

end Programs

end Mcsos.Mcsfs1
