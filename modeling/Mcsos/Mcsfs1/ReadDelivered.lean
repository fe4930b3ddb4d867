import Mcsos.Mcsfs1.Fsck

/-!
# Sizes that a file cannot have

`mcsfs1_read` compares the size in the inode with the room of its caller, copies the blocks of the
file, eight at most, and reports the size.  `mcsfs1_write` never makes a file of more than 4096
bytes, but `mcsfs1_mount` does not look at the inodes of files.  If an image has a larger size in
one, then the reader reports bytes that it has not copied.

`read_delivered_iff` says that nothing else can go wrong, for any image that can be mounted.
-/

namespace Mcsos.Mcsfs1

open Bytes Function Prog

variable {dev : Blkdev} {mnt : Mount} {d d' : Disk} {x : Inode} {beyond : UInt8} {name : CStr}
  {cap i r remain : ℕ}

/-- `n` bytes of the blocks of a file from place `i` on. -/
def fileBytes (d : Disk) (x : Inode) (i n : ℕ) : List UInt8 :=
  (List.range n).map fun k => (d (x.direct (i + k / blockSize))).byte (k % blockSize)

@[simp] theorem length_fileBytes (d : Disk) (x : Inode) (i n : ℕ) :
    (fileBytes d x i n).length = n := by
  rw [fileBytes, List.length_map, List.length_range]

/-- If `mcsfs1_read` reports `n` bytes, then there is room for them, and each of them was copied
to the buffer from a block of the file. -/
def ReadDelivered (mnt : Mount) (d : Disk) (beyond : UInt8) (name : CStr) (cap : ℕ) : Prop :=
  ∀ bytes n d', Exec (read beyond mnt name cap) d (.ok (bytes, n)) d' →
    n ≤ cap ∧ ∃ s ino, (view d).search beyond name = .ok (s, ino) ∧ n ≤ bytes.length ∧
      ∀ k < n, k / blockSize < directBlocks ∧
        bytes[k]? = some ((d (((view d).inode ino).direct (k / blockSize))).byte (k % blockSize))

/-- Inode `x` is one of a file of more than eight blocks, which passes all checks of
`mcsfs1_read`. -/
structure Overlong (dev : Blkdev) (cap : ℕ) (x : Inode) : Prop where
  mode : x.mode = modeFile
  large : directBlocks * blockSize < x.size
  fits : x.size ≤ cap
  direct : ∀ i < directBlocks, x.direct i ≠ 0 ∧ x.direct i < dev.blockCount

/-- The name belongs to such a file. -/
def NamesOverlong (mnt : Mount) (d : Disk) (beyond : UInt8) (name : CStr) (cap : ℕ) : Prop :=
  ∃ s ino, (view d).search beyond name = .ok (s, ino) ∧ ino ≤ maxInodes ∧
    Overlong mnt.dev cap ((view d).inode ino)

/-! ## Mounting -/

theorem meets_mount {I : Disk → Prop} (hI : I d) :
    Meets I (fun mnt d' => d' = d ∧ mnt.dev = dev ∧ dataStartLba < dev.blockCount)
      (mount dev) d := by
  refine (meets_loadSuper hI).bind ?_
  rintro sb d₁ hI₁ ⟨rfl, rfl, hn, -⟩
  refine (meets_readInode hI₁).bind ?_
  rintro root d₂ hI₂ ⟨rfl, -⟩
  exact meets_failIf_bind hI₂ fun _ => Meets.ret hI₂ ⟨rfl, rfl, hn⟩

/-- A device that was mounted has data blocks. -/
theorem mount_ok (h : (run (mount dev) d).1 = .ok mnt) :
    mnt.dev = dev ∧ dataStartLba < dev.blockCount :=
  ((meets_mount (I := fun _ => True) trivial).2 mnt h).2

/-- What mounting needs is a part of what `mcsfs1_fsck` checks. -/
theorem mount_of_checked (h : Checked dev.blockCount (view d)) :
    (run (mount dev) d).1 = .ok ⟨dev, dev.blockCount, dataStartLba⟩ := by
  have hmount : Does view (fun _ => True) (mount dev) d
      (.ok ⟨dev, dev.blockCount, dataStartLba⟩) (view d) := by
    refine Does.bind (does_loadSuper h.bounds h.super trivial) fun d₁ hd₁ => ?_
    rw [← hd₁] at h ⊢
    refine Does.bind (does_readInode (by decide) h.bounds trivial) fun d₂ hd₂ => ?_
    rw [← hd₂] at h ⊢
    refine Runs.failIf_bind (by simp [h.root_mode, h.root_direct]) ?_
    rw [h.super.blockCount, h.super.dataStart]
    exact Does.ret trivial
  exact hmount.1

/-! ## The loop -/

/-- The first block, and the rest of the file behind it. -/
theorem fileBytes_split (d : Disk) (x : Inode) (i : ℕ) {n chunk : ℕ}
    (hchunk : chunk = if blockSize < n then blockSize else n) :
    fileBytes d x i n = (List.range chunk).map (d (x.direct i)).byte ++
      fileBytes d x (i + 1) (n - chunk) :=
  range_map_chunk (fun j o => (d (x.direct j)).byte o) i hchunk

/-- The bytes that are copied with `r` places left. -/
theorem fileBytes_min_succ (d : Disk) (x : Inode) (i r remain : ℕ) :
    fileBytes d x i (min remain (blockSize * (r + 1))) =
      (List.range (if blockSize < remain then blockSize else remain)).map (d (x.direct i)).byte ++
        fileBytes d x (i + 1)
          (min (remain - if blockSize < remain then blockSize else remain) (blockSize * r)) := by
  have hchunk : (if blockSize < remain then blockSize else remain) =
      if blockSize < min remain (blockSize * (r + 1)) then blockSize
      else min remain (blockSize * (r + 1)) := by
    simp only [blockSize]
    split_ifs <;> omega
  rw [fileBytes_split d x i hchunk]
  congr 2
  simp only [blockSize]
  split_ifs <;> omega

/-- If the loop ends well, it has copied as much as eight blocks hold, and all blocks it used are
there. -/
theorem meets_readData : Meets (fun d' => d' = d) (fun bytes _ =>
      bytes = fileBytes d x i (min remain (blockSize * r)) ∧
        ∀ j < r, blockSize * j < remain → x.direct (i + j) ≠ 0 ∧ x.direct (i + j) < dev.blockCount)
    (readData dev x r i remain) d := by
  induction r generalizing i remain with
  | zero =>
    refine Meets.ret rfl ⟨?_, fun j hj => absurd hj (Nat.not_lt_zero j)⟩
    rw [Nat.mul_zero, Nat.min_zero]
    rfl
  | succ r ih =>
    unfold readData
    by_cases hzero : remain = 0
    · rw [if_pos hzero, hzero, Nat.zero_min]
      exact Meets.ret rfl ⟨rfl, fun j _ hj => absurd hj (Nat.not_lt_zero _)⟩
    · rw [if_neg hzero]
      refine meets_failIf_bind rfl fun hdirect => meets_devRead_bind rfl fun hlba => ?_
      refine Meets.bind ih ?_
      rintro rest _ rfl ⟨rfl, hblocks⟩
      refine Meets.ret rfl ⟨(fileBytes_min_succ _ x i r remain).symm, fun j hj hlt => ?_⟩
      cases j with
      | zero => exact ⟨hdirect, hlba⟩
      | succ j =>
        have hnext := hblocks j (by omega) (by
          simp only [blockSize] at hlt ⊢
          split_ifs <;> omega)
        rwa [show i + (j + 1) = i + 1 + j by omega]

theorem run_failIf_bind {α : Type} {c : Prop} [Decidable c] {e : Err} {f : Unit → DiskM α}
    (hc : ¬ c) :
    run (failIf c e >>= f) d = run (f ()) d := by
  rw [failIf, if_neg hc]
  rfl

theorem run_devRead_bind {α : Type} {lba : ℕ} {f : Block → DiskM α} (hlba : lba < dev.blockCount) :
    run (devRead dev lba >>= f) d = run (f (d lba)) d := by
  rw [devRead, if_neg (Nat.not_le.mpr hlba)]
  rfl

/-- With all blocks in place the loop ends well. -/
theorem run_readData (hblocks : ∀ j < r, x.direct (i + j) ≠ 0 ∧ x.direct (i + j) < dev.blockCount) :
    ∃ bytes, run (readData dev x r i remain) d = (.ok bytes, d) := by
  induction r generalizing i remain with
  | zero => exact ⟨[], rfl⟩
  | succ r ih =>
    unfold readData
    by_cases hzero : remain = 0
    · rw [if_pos hzero]
      exact ⟨[], rfl⟩
    · obtain ⟨hdirect, hlba⟩ : x.direct i ≠ 0 ∧ x.direct i < dev.blockCount :=
        hblocks 0 (Nat.succ_pos r)
      obtain ⟨rest, hrest⟩ : ∃ rest, run (readData dev x r (i + 1)
          (remain - if blockSize < remain then blockSize else remain)) d = (.ok rest, d) := by
        refine ih fun j hj => ?_
        have := hblocks (j + 1) (by omega)
        rwa [show i + 1 + j = i + (j + 1) by omega]
      rw [if_neg hzero, run_failIf_bind hdirect, run_devRead_bind hlba, run_bind_ok hrest]
      exact ⟨_, rfl⟩

/-! ## The call -/

theorem meets_search {I : Disk → Prop} (hn : dataStartLba < dev.blockCount) (hI : I d) :
    Meets I (fun x d' => d' = d ∧ (view d).search beyond name = .ok x) (findDirent beyond dev name)
      d := by
  have hfind : Meets I _ (findDirent beyond dev name) d := meets_findDirent beyond name hI
  have hsearch : Does view (fun _ => True) (findDirent beyond dev name) d _ _ :=
    does_findDirent beyond name hn trivial
  refine ⟨hfind.1, fun x hx => ⟨(hfind.2 x hx).1, ?_⟩⟩
  rw [← hsearch.1, hx]

theorem meets_readInode_range {I : Disk → Prop} {ino : ℕ} (hI : I d) :
    Meets I (fun x d' => d' = d ∧ x = (view d).inode ino ∧ ino ≤ maxInodes)
      (readInode dev ino) d := by
  refine meets_failIf_bind hI fun hino => meets_failIf_bind hI fun _ =>
    meets_devRead_bind hI fun _ => ?_
  refine Meets.ret hI ⟨rfl, (if_pos ?_).symm, ?_⟩
  · omega
  · omega

/-- A call that ends well has found a file, and has copied as much of it as eight blocks hold. -/
structure HasRead (mnt : Mount) (d : Disk) (beyond : UInt8) (name : CStr) (cap : ℕ)
    (out : List UInt8 × ℕ) (s ino : ℕ) : Prop where
  search : (view d).search beyond name = .ok (s, ino)
  ino_le : ino ≤ maxInodes
  mode : ((view d).inode ino).mode = modeFile
  length : out.2 = ((view d).inode ino).size
  room : out.2 ≤ cap
  bytes : out.1 = fileBytes d ((view d).inode ino) 0 (min out.2 (blockSize * directBlocks))
  blocks : ∀ j < directBlocks, blockSize * j < out.2 →
    ((view d).inode ino).direct j ≠ 0 ∧ ((view d).inode ino).direct j < mnt.dev.blockCount

theorem meets_read (hn : dataStartLba < mnt.dev.blockCount) :
    Meets (fun d' => d' = d) (fun out _ => ∃ s ino, HasRead mnt d beyond name cap out s ino)
      (read beyond mnt name cap) d := by
  have hsearch : Meets (fun d' => d' = d) _ (findDirent beyond mnt.dev name) d :=
    meets_search hn rfl
  refine hsearch.bind ?_
  rintro ⟨s, ino⟩ d₁ rfl ⟨-, hfound⟩
  have hinode : Meets (fun d' => d' = d₁) _ (readInode mnt.dev ino) d₁ := meets_readInode_range rfl
  refine hinode.bind ?_
  rintro x d₂ rfl ⟨-, rfl, hino⟩
  refine meets_failIf_bind rfl fun hmode => meets_failIf_bind rfl fun hcap => ?_
  have hdata : Meets (fun d' => d' = d₂) _
      (readData mnt.dev ((view d₂).inode ino) directBlocks 0 ((view d₂).inode ino).size) d₂ :=
    meets_readData
  refine hdata.bind ?_
  rintro bytes d₃ rfl ⟨hbytes, hblocks⟩
  refine Meets.ret rfl ⟨s, ino, hfound, hino, not_not.mp hmode, rfl, Nat.not_lt.mp hcap, hbytes, ?_⟩
  intro j hj hlt
  have := hblocks j hj hlt
  rwa [Nat.zero_add] at this

theorem failsFast_readData (r i remain : ℕ) : FailsFast (readData dev x r i remain) := by
  induction r generalizing i remain with
  | zero => trivial
  | succ r ih =>
    unfold readData
    -- as a variable, the number of the block is not computed by the steps below
    generalize x.direct i = lba
    apply FailsFast.ite
    · trivial
    apply FailsFast.bind (failsFast_failIf _ _)
    intro _
    apply FailsFast.bind (failsFast_devRead dev _)
    intro _
    apply FailsFast.bind (ih _ _)
    intro _
    trivial

theorem failsFast_read : FailsFast (read beyond mnt name cap) := by
  apply FailsFast.bind (failsFast_findDirent mnt.dev _ _)
  intro _
  apply FailsFast.bind (failsFast_readInode mnt.dev _)
  intro x
  apply FailsFast.bind (failsFast_failIf _ _)
  intro _
  apply FailsFast.bind (failsFast_failIf _ _)
  intro _
  apply FailsFast.bind (failsFast_readData _ _ _)
  intro _
  trivial

/-- Whatever callbacks fail, a call that ends well is one that would end well without failures. -/
theorem hasRead_of_exec (hn : dataStartLba < mnt.dev.blockCount) {out : List UInt8 × ℕ}
    (h : Exec (read beyond mnt name cap) d (.ok out) d') :
    ∃ s ino, HasRead mnt d beyond name cap out s ino := by
  rcases (failsFast_read.exec (along_true _ d) h).2 with hrun | ⟨e, he⟩
  · exact (meets_read hn).2 out (congrArg Prod.fst hrun)
  · cases he

/-- The call ends well if all its checks pass and all blocks are in place. -/
theorem run_read_of_overlong (hn : dataStartLba < mnt.dev.blockCount) {s ino : ℕ}
    (hsearch : (view d).search beyond name = .ok (s, ino)) (hino : ino ≤ maxInodes)
    (hx : Overlong mnt.dev cap ((view d).inode ino)) :
    ∃ out, run (read beyond mnt name cap) d = (.ok out, d) := by
  have hlow : 1 ≤ ino := by
    obtain ⟨-, -, hlive, rfl⟩ := search_ok hsearch
    exact Nat.one_le_iff_ne_zero.mpr hlive.2
  have hfind : run (findDirent beyond mnt.dev name) d = (.ok (s, ino), d) := by
    have hdoes : Does view (fun _ => True) (findDirent beyond mnt.dev name) d _ _ :=
      does_findDirent beyond name hn trivial
    have hsame : Meets (fun d' => d' = d) _ (findDirent beyond mnt.dev name) d :=
      meets_search hn rfl
    exact Prod.ext (hdoes.1.trans hsearch) hsame.1.final
  have hinode : run (readInode mnt.dev ino) d = (.ok ((view d).inode ino), d) := by
    have hdoes : Does view (fun _ => True) (readInode mnt.dev ino) d _ _ :=
      does_readInode ⟨hlow, hino⟩ hn trivial
    have hsame : Meets (fun d' => d' = d) _ (readInode mnt.dev ino) d := meets_readInode rfl
    exact Prod.ext hdoes.1 hsame.1.final
  obtain ⟨bytes, hdata⟩ : ∃ bytes, run (readData mnt.dev ((view d).inode ino) directBlocks 0
      ((view d).inode ino).size) d = (.ok bytes, d) := by
    refine run_readData fun j hj => ?_
    rw [Nat.zero_add]
    exact hx.direct j hj
  rw [read, run_bind_ok hfind]
  dsimp only
  rw [run_bind_ok hinode, run_failIf_bind (not_not.mpr hx.mode),
    run_failIf_bind (Nat.not_lt.mpr hx.fits), run_bind_ok hdata]
  exact ⟨_, rfl⟩

/-- Eight blocks are copied, and more is reported. -/
theorem NamesOverlong.not_delivered (hn : dataStartLba < mnt.dev.blockCount)
    (h : NamesOverlong mnt d beyond name cap) : ¬ ReadDelivered mnt d beyond name cap := by
  intro hread
  obtain ⟨s, ino, hsearch, hino, hx⟩ := h
  obtain ⟨out, hrun⟩ := run_read_of_overlong hn hsearch hino hx
  obtain ⟨s', ino', hout⟩ := hasRead_of_exec hn (exec_of_run hrun)
  obtain ⟨-, -, -, -, hlength, -⟩ := hread out.1 out.2 d (exec_of_run hrun)
  have hsame := hsearch.symm.trans hout.search
  cases hsame
  have hlarge := hx.large
  rw [hout.bytes, length_fileBytes, hout.length] at hlength
  simp only [blockSize, directBlocks] at hlength hlarge
  omega

/-- **What a read delivers.**  On every image that can be mounted, for every name and every room,
and whatever callbacks fail: `mcsfs1_read` reports only bytes that it has copied from blocks of the
file exactly if the name does not belong to a file of more than eight blocks that fits into the
room. -/
theorem read_delivered_iff (dev : Blkdev) (d : Disk) (mnt : Mount)
    (hmount : (run (mount dev) d).1 = .ok mnt) (beyond : UInt8) (name : CStr) (cap : ℕ) :
    ReadDelivered mnt d beyond name cap ↔ ¬ NamesOverlong mnt d beyond name cap := by
  obtain ⟨rfl, hn⟩ := mount_ok hmount
  constructor
  · exact fun hread hlong => hlong.not_delivered hn hread
  · intro hnot bytes n d' hexec
    obtain ⟨s, ino, hout⟩ := hasRead_of_exec hn hexec
    have hsize : n ≤ blockSize * directBlocks := by
      by_contra hlarge
      refine hnot ⟨s, ino, hout.search, hout.ino_le, hout.mode, ?_, ?_, fun i hi => ?_⟩
      · rw [← hout.length, Nat.mul_comm]
        exact Nat.not_le.mp hlarge
      · rw [← hout.length]
        exact hout.room
      · refine hout.blocks i hi ?_
        simp only [blockSize, directBlocks] at hlarge hi ⊢
        omega
    have hbytes : bytes = fileBytes d ((view d).inode ino) 0 n := by
      have := hout.bytes
      rwa [Nat.min_eq_left hsize] at this
    refine ⟨hout.room, s, ino, hout.search, ?_, fun k hk => ⟨?_, ?_⟩⟩
    · rw [hbytes, length_fileBytes]
    · simp only [blockSize, directBlocks] at hsize ⊢
      omega
    · simp only [hbytes, fileBytes, List.getElem?_map, List.getElem?_range hk, Option.map_some,
        Nat.zero_add]

/-! ## An image with a file that is too long -/

/-- An inode with the given size and the eight blocks from block 8 on. -/
def sizedInode (size : ℕ) : Inode :=
  (List.range directBlocks).foldl (fun x i => x.setDirect i (dataStartLba + i))
    (Inode.make modeFile size dataStartLba)

theorem mount_withInode (x : Inode) : (run (mount ⟨16⟩) (withInode x)).1 = .ok smallMount :=
  mount_of_checked (checked_withInode x)

/-- With a size of 4097 bytes, 4096 are copied and 4097 reported. -/
theorem read_reports_too_much :
    (run (mount ⟨16⟩) (withInode (sizedInode 4097))).1 = .ok smallMount ∧
      ¬ ReadDelivered smallMount (withInode (sizedInode 4097)) 0 fileName 4097 := by
  have hmount := mount_withInode (sizedInode 4097)
  have hx : Overlong smallMount.dev 4097 ((view (withInode (sizedInode 4097))).inode 2) := by
    rw [inode_withInode]
    exact ⟨by decide, by decide, by decide, by decide⟩
  have hlong : NamesOverlong smallMount (withInode (sizedInode 4097)) 0 fileName 4097 :=
    ⟨0, 2, search_withInode _, by decide, hx⟩
  exact ⟨hmount, hlong.not_delivered (mount_ok hmount).2⟩

/-- With 4096 bytes all is well. -/
theorem read_delivered_iff_full :
    (run (mount ⟨16⟩) (withInode (sizedInode 4096))).1 = .ok smallMount ∧
      ReadDelivered smallMount (withInode (sizedInode 4096)) 0 fileName 8192 := by
  have hmount := mount_withInode (sizedInode 4096)
  refine ⟨hmount, (read_delivered_iff _ _ _ hmount 0 fileName 8192).mpr ?_⟩
  rintro ⟨s, ino, hsearch, -, hx⟩
  have hsame := (search_withInode (sizedInode 4096)).symm.trans hsearch
  cases hsame
  have hlarge := hx.large
  rw [inode_withInode] at hlarge
  exact absurd hlarge (by decide)

end Mcsos.Mcsfs1
