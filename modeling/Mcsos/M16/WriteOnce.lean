import Mcsos.Lib.Run
import Mcsos.M16.Check

/-!
# Files are written once

Nothing is ever deleted, so the first-free searches take inodes, data blocks and directory entries
one after the other: file number `i` has entry `i`, inode `i + 1` and block `25 + i`.
`Stored s files` says this of a state and a list of files, oldest first, and with it every search,
every lookup and every creation is known.
-/

namespace Mcsos.M16

open Bytes

/-- A name and the bytes written under it. -/
abbrev File : Type := CStr × List UInt8

/-- File number `i` is where it is expected. -/
structure FileAt (s : FsState) (i : ℕ) (f : File) : Prop where
  name_pos : 0 < f.1.length
  name_lt : f.1.length < maxName
  fits : f.2.length ≤ blockSize
  ino : direntIno s.dir i = i + 1
  name : ∀ j < maxName, direntName s.dir i j = f.1.char j
  size : inodeSize s.inodes (i + 1) = f.2.length
  direct0 : inodeDirect0 s.inodes (i + 1) = dataStartLba + i
  data : s.data i = dataBlockOf f.2

/-- The filesystem holds these files, oldest first, and nothing else is taken. -/
structure Stored (s : FsState) (files : List File) : Prop where
  count : files.length ≤ direntCount
  used : ∀ i < direntCount, direntUsed s.dir i ≠ 0 ↔ i < files.length
  ib : ∀ i < maxInodes, bitmapGet s.ib i = decide (i ≤ files.length)
  bb : ∀ i < maxBlocks, bitmapGet s.bb i = decide (i < dataStartLba + files.length)
  file : ∀ i f, files[i]? = some f → FileAt s i f
  names : (files.map Prod.fst).Nodup

variable {s : FsState} {files : List File} {name : CStr} {data : List UInt8}

/-! ## The searches -/

theorem Stored.matches_iff (h : Stored s files) {i : ℕ} (hi : i < direntCount) :
    Matches s.dir name i ↔ ∃ f, files[i]? = some f ∧ f.1 = name := by
  have hstreq : ∀ f, files[i]? = some f →
      (streq (direntName s.dir i) name.char = true ↔ f.1 = name) := by
    intro f hf
    have hat := h.file i f hf
    rw [streq_congr hat.name, streq_char hat.name_lt]
  constructor
  · rintro ⟨hused, hname⟩
    have hlt := (h.used i hi).mp hused
    have hf : files[i]? = some files[i] := List.getElem?_eq_getElem hlt
    exact ⟨files[i], hf, (hstreq _ hf).mp hname⟩
  · rintro ⟨f, hf, rfl⟩
    have hlt : i < files.length := (List.getElem?_eq_some_iff.mp hf).1
    exact ⟨(h.used i hi).mpr hlt, (hstreq f hf).mpr rfl⟩

theorem Stored.findDirent_of_notMem (h : Stored s files) (hname : name ∉ files.map Prod.fst) :
    findDirent s.dir name = .error .noent := by
  refine findDirent_error_iff.mpr fun i hi hmatch => ?_
  obtain ⟨f, hf, rfl⟩ := (h.matches_iff hi).mp hmatch
  exact hname (List.mem_map_of_mem (List.mem_of_getElem? hf))

theorem Stored.findDirent_of_mem (h : Stored s files) {f : File} (hf : f ∈ files) :
    ∃ i, files[i]? = some f ∧ findDirent s.dir f.1 = .ok i := by
  obtain ⟨i, hi⟩ := List.getElem?_of_mem hf
  have hlt : i < files.length := (List.getElem?_eq_some_iff.mp hi).1
  have hmatch := (h.matches_iff (hlt.trans_le h.count)).mpr ⟨f, hi, rfl⟩
  refine ⟨i, hi, ?_⟩
  cases hfind : findDirent s.dir f.1 with
  | error e =>
    obtain rfl := findDirent_error_noent hfind
    exact absurd hmatch (findDirent_error_iff.mp hfind i (hlt.trans_le h.count))
  | ok j =>
    obtain ⟨hj, hfound⟩ := findDirent_ok hfind
    obtain ⟨g, hg, hgname⟩ := (h.matches_iff hj).mp hfound
    -- both entries have the name, and no name is there twice
    have hnth : ∀ {k : ℕ} {g : File}, files[k]? = some g → (files.map Prod.fst)[k]? = some g.1 := by
      intro k g hk
      rw [List.getElem?_map, hk]
      rfl
    have hlt' : j < (files.map Prod.fst).length := by
      rw [List.length_map]
      exact (List.getElem?_eq_some_iff.mp hg).1
    have heq : (files.map Prod.fst)[j]? = (files.map Prod.fst)[i]? := by
      rw [hnth hg, hnth hi, hgname]
    rw [(List.getElem?_inj hlt' h.names).mp heq]

theorem Stored.findFreeInode (h : Stored s files) :
    findFreeInode s.ib = .ok (files.length + 1) := by
  have hcount := h.count
  simp only [direntCount] at hcount
  have hfind : (List.range' 1 (maxInodes - 1)).find? (fun i => !bitmapGet s.ib i) =
      some (files.length + 1) := by
    rw [List.find?_range'_eq_some]
    refine ⟨?_, ?_, fun j hlow hj => ?_⟩
    · rw [h.ib _ (by simp only [maxInodes]; omega)]
      simp
    · rw [List.mem_range'_1]
      simp only [maxInodes]
      omega
    · rw [h.ib _ (by simp only [maxInodes]; omega)]
      simp
      omega
  rw [M16.findFreeInode, hfind]

theorem Stored.findFreeBlock (h : Stored s files) :
    findFreeBlock s.bb = .ok (dataStartLba + files.length) := by
  have hcount := h.count
  simp only [direntCount] at hcount
  have hfind : (List.range' dataStartLba (maxBlocks - dataStartLba)).find?
      (fun i => !bitmapGet s.bb i) = some (dataStartLba + files.length) := by
    rw [List.find?_range'_eq_some]
    refine ⟨?_, ?_, fun j hlow hj => ?_⟩
    · rw [h.bb _ (by simp only [maxBlocks, dataStartLba]; omega)]
      simp
    · rw [List.mem_range'_1]
      simp only [maxBlocks, dataStartLba]
      omega
    · simp only [dataStartLba] at hj
      rw [h.bb _ (by simp only [maxBlocks]; omega)]
      simp
      omega
  rw [M16.findFreeBlock, hfind]

theorem Stored.findFreeDirent_of_room (h : Stored s files) (hroom : files.length < direntCount) :
    findFreeDirent s.dir = .ok files.length := by
  have hfind : (List.range direntCount).find? (fun i => direntUsed s.dir i == 0) =
      some files.length := by
    rw [List.find?_range_eq_some]
    refine ⟨?_, List.mem_range.mpr hroom, fun j hj => ?_⟩
    · have hunused := mt (h.used _ hroom).mp (Nat.lt_irrefl _)
      simpa using hunused
    · have hused := (h.used j (hj.trans hroom)).mpr hj
      simpa using hused
  rw [findFreeDirent, hfind]

theorem Stored.findFreeDirent_of_full (h : Stored s files) (hfull : files.length = direntCount) :
    findFreeDirent s.dir = .error .nospc := by
  have hfind : (List.range direntCount).find? (fun i => direntUsed s.dir i == 0) = none := by
    rw [List.find?_eq_none]
    intro i hi
    have hlt := List.mem_range.mp hi
    have hused := (h.used i hlt).mpr (hfull.symm ▸ hlt)
    simpa using hused
  rw [findFreeDirent, hfind]

/-! ## Creating a file -/

/-- A name of 1 to 31 bytes and data that fits a block. -/
def Valid (name : CStr) (data : List UInt8) : Prop :=
  0 < name.length ∧ name.length < maxName ∧ data.length ≤ blockSize

instance (name : CStr) (data : List UInt8) : Decidable (Valid name data) :=
  inferInstanceAs (Decidable (_ ∧ _ ∧ _))

theorem strlenBounded_bad_iff (name : CStr) :
    (strlenBounded name.char maxName = 0 ∨ maxName ≤ strlenBounded name.char maxName) ↔
      ¬ (0 < name.length ∧ name.length < maxName) := by
  unfold strlenBounded
  rw [scanLen_char]
  simp only [maxName]
  omega

/-- What a creation takes is known from the number of files. -/
theorem Stored.plan_eq (h : Stored s files) (hvalid : Valid name data) :
    plan s name data =
      if name ∈ files.map Prod.fst then .error .exists
      else if files.length = direntCount then .error .nospc
      else .ok ⟨files.length + 1, dataStartLba + files.length, files.length⟩ := by
  obtain ⟨hpos, hlt, hfits⟩ := hvalid
  have hname :
      ¬ (strlenBounded name.char maxName = 0 ∨ maxName ≤ strlenBounded name.char maxName) := by
    rw [strlenBounded_bad_iff, not_not]
    exact ⟨hpos, hlt⟩
  unfold plan
  rw [if_neg hname, if_neg (Nat.not_lt.mpr hfits), h.findFreeInode, h.findFreeBlock]
  by_cases hmem : name ∈ files.map Prod.fst
  · obtain ⟨f, hf, rfl⟩ := List.mem_map.mp hmem
    obtain ⟨i, -, hfind⟩ := h.findDirent_of_mem hf
    rw [if_pos hmem, hfind]
    rfl
  · rw [if_neg hmem, h.findDirent_of_notMem hmem, if_neg (by simp [Except.isOk, Except.toBool])]
    by_cases hfull : files.length = direntCount
    · rw [if_pos hfull, h.findFreeDirent_of_full hfull]
    · rw [if_neg hfull, h.findFreeDirent_of_room (Nat.lt_of_le_of_ne h.count hfull)]

theorem plan_of_not_valid (hvalid : ¬ Valid name data) :
    plan s name data = .error .toolong ∨ plan s name data = .error .inval := by
  unfold plan
  by_cases hname : strlenBounded name.char maxName = 0 ∨ maxName ≤ strlenBounded name.char maxName
  · exact Or.inl (if_pos hname)
  · rw [if_neg hname]
    rw [strlenBounded_bad_iff, not_not] at hname
    have hsize : blockSize < data.length := by
      by_contra hfits
      exact hvalid ⟨hname.1, hname.2, Nat.le_of_not_lt hfits⟩
    exact Or.inr (if_pos hsize)

/-- An older file does not notice a creation. -/
theorem FileAt.create {i k : ℕ} {f : File} (h : FileAt s i f) (hi : i < k)
    (hlt : name.length < maxName) :
    FileAt ((s.reserve (k + 1) (dataStartLba + k) data.length).link k (k + 1)
      (dataStartLba + k) name data) i f := by
  have hname : name.length ≤ 32 := hlt.le
  have hslot : i ≠ k := Nat.ne_of_lt hi
  have hother : i + 1 ≠ k + 1 := fun heq => hslot (Nat.succ.inj heq)
  constructor
  case name_pos => exact h.name_pos
  case name_lt => exact h.name_lt
  case fits => exact h.fits
  case ino => exact (direntIno_setDirent_of_ne hslot hname).trans h.ino
  case name => exact fun j hj => (direntName_setDirent_of_ne hslot hj hname).trans (h.name j hj)
  case size => exact (inodeSize_setInode_of_ne hother).trans h.size
  case direct0 => exact (inodeDirect0_setInode_of_ne hother).trans h.direct0
  case data =>
    rw [link_data, reserve_data, Nat.add_sub_cancel_left, Function.update_of_ne hslot]
    exact h.data

/-- The new file. -/
theorem fileAt_create {k : ℕ} (hpos : 0 < name.length) (hlt : name.length < maxName)
    (hfits : data.length ≤ blockSize) (hroom : k < direntCount) :
    FileAt ((s.reserve (k + 1) (dataStartLba + k) data.length).link k (k + 1)
      (dataStartLba + k) name data) k (name, data) := by
  simp only [direntCount] at hroom
  have hino : k + 1 < maxInodes := by
    simp only [maxInodes]
    omega
  constructor
  case name_pos => exact hpos
  case name_lt => exact hlt
  case fits => exact hfits
  case ino => exact (direntIno_setDirent hroom).trans (Nat.mod_eq_of_lt (hino.trans (by decide)))
  case name => exact fun j hj => direntName_setDirent hroom hj
  case size =>
    exact (inodeSize_setInode hino).trans (Nat.mod_eq_of_lt (hfits.trans_lt (by decide)))
  case direct0 =>
    refine (inodeDirect0_setInode hino).trans (Nat.mod_eq_of_lt ?_)
    simp only [dataStartLba]
    omega
  case data => rw [link_data, Nat.add_sub_cancel_left, Function.update_self]

/-- The files after a creation. -/
theorem Stored.create (h : Stored s files) (hvalid : Valid name data)
    (hnew : name ∉ files.map Prod.fst) (hroom : files.length < direntCount) :
    Stored ((s.reserve (files.length + 1) (dataStartLba + files.length) data.length).link
      files.length (files.length + 1) (dataStartLba + files.length) name data)
      (files ++ [(name, data)]) := by
  obtain ⟨hpos, hlt, hfits⟩ := hvalid
  have hname : name.length ≤ 32 := hlt.le
  have hino : files.length + 1 < maxInodes := by
    simp only [direntCount, maxInodes] at hroom ⊢
    omega
  constructor
  case count =>
    rw [List.length_append, List.length_singleton]
    exact hroom
  case used =>
    intro i hi
    rw [link_dir, reserve_dir, List.length_append, List.length_singleton]
    by_cases heq : i = files.length
    · subst heq
      rw [direntUsed_setDirent hi]
      simp
    · rw [direntUsed_setDirent_of_ne heq hname, h.used i hi]
      omega
  case ib =>
    intro i hi
    show bitmapGet (bitmapSet s.ib (files.length + 1)) i = _
    rw [bitmapGet_bitmapSet _ _ (hino.trans (by decide)), h.ib i hi, List.length_append,
      List.length_singleton, ← Bool.decide_or]
    exact decide_eq_decide.mpr (by omega)
  case bb =>
    intro i hi
    have hsmall : dataStartLba + files.length < 4096 := by
      simp only [direntCount, dataStartLba] at hroom ⊢
      omega
    show bitmapGet (bitmapSet s.bb (dataStartLba + files.length)) i = _
    rw [bitmapGet_bitmapSet _ _ hsmall, h.bb i hi, List.length_append, List.length_singleton,
      ← Bool.decide_or]
    exact decide_eq_decide.mpr (by omega)
  case file =>
    intro i f hf
    by_cases hi : i < files.length
    · -- an older file: its entry, its inode and its block are the old ones
      rw [List.getElem?_append_left hi] at hf
      exact (h.file i f hf).create hi hlt
    · -- the new one
      have hnext : i = files.length := by
        have := (List.getElem?_eq_some_iff.mp hf).1
        rw [List.length_append, List.length_singleton] at this
        omega
      subst hnext
      rw [List.getElem?_concat_length] at hf
      cases hf
      exact fileAt_create hpos hlt hfits hroom
  case names =>
    rw [List.map_append, List.map_singleton]
    exact h.names.append (List.nodup_singleton _) (by simpa using hnew)

/-! ## Reading a file -/

theorem Stored.lookup_of_notMem (h : Stored s files) (hname : name ∉ files.map Prod.fst)
    (behind : ℕ → UInt8) (outCap : ℕ) : lookup s behind name outCap = .error .noent :=
  lookup_of_noent (h.findDirent_of_notMem hname) behind outCap

theorem Stored.lookup_of_mem (h : Stored s files) {f : File} (hf : f ∈ files) (behind : ℕ → UInt8)
    (outCap : ℕ) :
    lookup s behind f.1 outCap = if outCap < f.2.length then .error .inval else .ok f.2 := by
  obtain ⟨i, hi, hfind⟩ := h.findDirent_of_mem hf
  have hat := h.file i f hi
  unfold lookup
  simp only [hfind, hat.ino, hat.size, hat.direct0, Nat.add_sub_cancel_left, hat.data,
    copyOut_dataBlockOf behind hat.fits]

/-! ## Devices -/

/-- A device with an empty journal that holds these files, oldest first; its blocks up to the last
one that is taken exist. -/
structure Holds (dev : Dev) (files : List File) : Prop where
  total_low : dataStartLba + files.length ≤ dev.totalBlocks
  total_high : dev.totalBlocks ≤ maxBlocks
  counter : dev.failAfter < 0
  header : dev.blocks journalStart = zero
  fs : FsOk (fsState dev.blocks)
  stored : Stored (fsState dev.blocks) files

variable {dev : Dev}

theorem Holds.sound (h : Holds dev files) : Sound dev where
  total_low := by
    have := h.total_low
    simp only [dataStartLba, rootDirLba] at this ⊢
    omega
  total_high := h.total_high
  header := h.header ▸ headerEmpty_zero
  fs := h.fs
  inside := by
    intro i hi hused
    have hlt := (h.stored.used i hi).mp hused
    have hat := h.stored.file i _ (List.getElem?_eq_getElem hlt)
    have := h.total_low
    rw [hat.ino, hat.direct0]
    omega

theorem Holds.journal (h : Holds dev files) : 18 ≤ dev.totalBlocks := by
  have := h.total_low
  simp only [dataStartLba] at this
  omega

/-- A formatted device holds no files. -/
theorem holds_format (hfail : dev.failAfter < 0) (hlow : dataStartLba ≤ dev.totalBlocks)
    (hhigh : dev.totalBlocks ≤ maxBlocks) : Holds (format dev).2 [] := by
  obtain ⟨-, htotal, hcounter, hheader, hstate⟩ := format_spec hfail hlow
  refine ⟨htotal.symm ▸ hlow, htotal.symm ▸ hhigh, hcounter, hheader,
    hstate ▸ formatStateOf_ok _, hstate ▸ ?_⟩
  constructor
  case count => exact Nat.zero_le _
  case used => exact fun i _ =>
    ⟨fun hused => absurd (u32_zero _) hused, fun hi => absurd hi (Nat.not_lt_zero i)⟩
  case ib =>
    intro i _
    rw [show (formatStateOf dev.totalBlocks).ib = bitmapSet zero 0 from rfl,
      bitmapGet_bitmapSet zero i (by decide), show bitmapGet zero i = false from testBit_zero i,
      Bool.or_false]
    exact decide_eq_decide.mpr (by simp [eq_comm])
  case bb => exact fun i _ => bitmapGet_formatState i
  case file => exact fun i f hf => by simp at hf
  case names => exact List.nodup_nil

/-- A call that makes no plan changes nothing. -/
theorem Holds.write_error (h : Holds dev files) {e : Err}
    (hplan : plan (fsState dev.blocks) name data = .error e) :
    writeFile name data dev = (.error e, dev) := by
  rw [writeFile, writeFileEx_eq h.sound, hplan]

/-- A call that finds a block inside of the device creates the file. -/
theorem Holds.write_ok (h : Holds dev files) (hvalid : Valid name data)
    (hnew : name ∉ files.map Prod.fst) (hroom : files.length < direntCount)
    (hblk : dataStartLba + files.length < dev.totalBlocks) :
    ∃ dev', writeFile name data dev = (.ok (), dev') ∧ Holds dev' (files ++ [(name, data)]) ∧
      dev'.totalBlocks = dev.totalBlocks ∧ (fsState dev'.blocks).inodes =
        setInode (fsState dev.blocks).inodes (files.length + 1) 1 1 data.length
          (dataStartLba + files.length) := by
  have hplan : plan (fsState dev.blocks) name data =
      .ok ⟨files.length + 1, dataStartLba + files.length, files.length⟩ := by
    rw [h.stored.plan_eq hvalid, if_neg hnew, if_neg (Nat.ne_of_lt hroom)]
  have hok := (plan_ok hplan).link_ok h.fs
  obtain ⟨dev', hcall, htotal, hcounter, hheader, hstate⟩ :=
    writeFile_of_plan h.sound h.counter hplan hblk
  refine ⟨dev', hcall, ?_, htotal, congrArg FsState.inodes hstate⟩
  constructor
  case total_low =>
    rw [htotal, List.length_append, List.length_singleton]
    exact hblk
  case total_high => exact htotal.symm ▸ h.total_high
  case counter => exact hcounter
  case header => exact hheader
  case fs => exact hstate ▸ hok
  case stored => exact hstate ▸ h.stored.create hvalid hnew hroom

/-! ## Runs -/

/-- A call of the filesystem; `behind` is the memory behind the buffer of `m16_read_file`. -/
inductive Call where
  | write (name : CStr) (data : List UInt8)
  | read (behind : ℕ → UInt8) (name : CStr) (outCap : ℕ)

/-- A device and the files that were written to it: the calls of `m16_write_file` that returned
`M16_E_OK`, oldest first. -/
structure Tracked where
  dev : Dev
  files : List File

/-- The names that were written. -/
def Tracked.names (x : Tracked) : List CStr := x.files.map Prod.fst

/-- One call. -/
def Call.step : Call → Tracked → Tracked
  | .write name data, x =>
      ⟨(writeFile name data x.dev).2,
        if (writeFile name data x.dev).1 = .ok () then x.files ++ [(name, data)] else x.files⟩
  | .read behind name outCap, x => ⟨(readFile behind name outCap x.dev).2, x.files⟩

/-- The call returns what a write-once map with room for twelve files says. -/
def Call.Agrees : Call → Tracked → Prop
  | .write name data, x =>
      ((writeFile name data x.dev).1 = .ok () ↔
        Valid name data ∧ name ∉ x.names ∧ x.files.length < 12) ∧
      ((writeFile name data x.dev).1 = .error .exists ↔ Valid name data ∧ name ∈ x.names) ∧
      ((writeFile name data x.dev).1 ≠ .ok () →
        ∀ lba, ¬ inJournal lba → (writeFile name data x.dev).2.blocks lba = x.dev.blocks lba)
  | .read behind name outCap, x =>
      ((readFile behind name outCap x.dev).1 = .error .noent ↔ name ∉ x.names) ∧
      ((readFile behind name outCap x.dev).1 = .error .inval ↔
        ∃ data, (name, data) ∈ x.files ∧ outCap < data.length) ∧
      ∀ data, (name, data) ∈ x.files → data.length ≤ outCap →
        (readFile behind name outCap x.dev).1 = .ok data

/-- The files have one directory entry each, with different inodes and different data blocks. -/
structure Separate (x : Tracked) : Prop where
  entry : ∀ f ∈ x.files, ∃ i < direntCount, Matches (fsState x.dev.blocks).dir f.1 i
  names : x.names.Nodup
  low : ∀ i < direntCount, direntUsed (fsState x.dev.blocks).dir i ≠ 0 →
    dataStartLba ≤ inodeDirect0 (fsState x.dev.blocks).inodes
      (direntIno (fsState x.dev.blocks).dir i)
  separate : ∀ i j, i < direntCount → j < direntCount → i ≠ j →
    direntUsed (fsState x.dev.blocks).dir i ≠ 0 → direntUsed (fsState x.dev.blocks).dir j ≠ 0 →
    direntIno (fsState x.dev.blocks).dir i ≠ direntIno (fsState x.dev.blocks).dir j ∧
      inodeDirect0 (fsState x.dev.blocks).inodes (direntIno (fsState x.dev.blocks).dir i) ≠
        inodeDirect0 (fsState x.dev.blocks).inodes (direntIno (fsState x.dev.blocks).dir j)

theorem Stored.at_of_used (h : Stored s files) {i : ℕ} (hi : i < direntCount)
    (hused : direntUsed s.dir i ≠ 0) : ∃ f, FileAt s i f := by
  have hlt := (h.used i hi).mp hused
  exact ⟨files[i], h.file i _ (List.getElem?_eq_getElem hlt)⟩

theorem Holds.separate (h : Holds dev files) : Separate ⟨dev, files⟩ where
  entry := by
    intro f hf
    obtain ⟨i, -, hfind⟩ := h.stored.findDirent_of_mem hf
    obtain ⟨hi, hmatch⟩ := findDirent_ok hfind
    exact ⟨i, hi, hmatch⟩
  names := h.stored.names
  low := fun i hi hused => (h.fs.entries i hi hused).data_low
  separate := by
    intro i j hi hj hne hused hused'
    obtain ⟨f, hf⟩ := h.stored.at_of_used hi hused
    obtain ⟨g, hg⟩ := h.stored.at_of_used hj hused'
    rw [hf.ino, hg.ino, hf.direct0, hg.direct0]
    omega

/-- What a call of `m16_write_file` does, on a device that has room for all the files of a full
directory. -/
theorem Holds.write_cases (h : Holds dev files) (hroom : 37 ≤ dev.totalBlocks) (name : CStr)
    (data : List UInt8) :
    (Valid name data ∧ name ∉ files.map Prod.fst ∧ files.length < direntCount ∧
      ∃ dev', writeFile name data dev = (.ok (), dev') ∧ Holds dev' (files ++ [(name, data)]) ∧
        dev'.totalBlocks = dev.totalBlocks) ∨
    (Valid name data ∧ name ∈ files.map Prod.fst ∧ writeFile name data dev =
      (.error .exists, dev)) ∨
    (Valid name data ∧ name ∉ files.map Prod.fst ∧ files.length = direntCount ∧
      writeFile name data dev = (.error .nospc, dev)) ∨
    (¬ Valid name data ∧ (writeFile name data dev = (.error .toolong, dev) ∨
      writeFile name data dev = (.error .inval, dev))) := by
  by_cases hvalid : Valid name data
  · have hplan := h.stored.plan_eq hvalid
    by_cases hmem : name ∈ files.map Prod.fst
    · rw [if_pos hmem] at hplan
      exact Or.inr (Or.inl ⟨hvalid, hmem, h.write_error hplan⟩)
    · by_cases hfull : files.length = direntCount
      · rw [if_neg hmem, if_pos hfull] at hplan
        exact Or.inr (Or.inr (Or.inl ⟨hvalid, hmem, hfull, h.write_error hplan⟩))
      · have hlt := Nat.lt_of_le_of_ne h.stored.count hfull
        have hblk : dataStartLba + files.length < dev.totalBlocks := by
          simp only [direntCount, dataStartLba] at hlt ⊢
          omega
        obtain ⟨dev', hcall, hholds, htotal, -⟩ := h.write_ok hvalid hmem hlt hblk
        exact Or.inl ⟨hvalid, hmem, hlt, dev', hcall, hholds, htotal⟩
  · refine Or.inr (Or.inr (Or.inr ⟨hvalid, ?_⟩))
    exact (plan_of_not_valid hvalid).imp h.write_error h.write_error

theorem Holds.agrees_write (h : Holds dev files) (hroom : 37 ≤ dev.totalBlocks) (name : CStr)
    (data : List UInt8) : (Call.write name data).Agrees ⟨dev, files⟩ := by
  simp only [Call.Agrees, Tracked.names]
  rcases h.write_cases hroom name data with ⟨hvalid, hmem, hlt, dev', hcall, -, -⟩ |
    ⟨hvalid, hmem, hcall⟩ | ⟨hvalid, hmem, hfull, hcall⟩ | ⟨hvalid, hcall | hcall⟩
  · rw [hcall]
    refine ⟨⟨fun _ => ⟨hvalid, hmem, hlt⟩, fun _ => rfl⟩,
      ⟨fun heq => ?_, fun hex => absurd hex.2 hmem⟩,
      fun hne => absurd rfl hne⟩
    cases heq
  · rw [hcall]
    refine ⟨⟨fun heq => ?_, fun hex => absurd hmem hex.2.1⟩,
      ⟨fun _ => ⟨hvalid, hmem⟩, fun _ => rfl⟩, fun _ _ _ => rfl⟩
    cases heq
  · rw [hcall]
    refine ⟨⟨fun heq => ?_, fun hex => absurd hfull (Nat.ne_of_lt hex.2.2)⟩,
      ⟨fun heq => ?_, fun hex => absurd hex.2 hmem⟩, fun _ _ _ => rfl⟩
    · cases heq
    · cases heq
  all_goals
    rw [hcall]
    refine ⟨⟨fun heq => ?_, fun hex => absurd hex.1 hvalid⟩,
      ⟨fun heq => ?_, fun hex => absurd hex.1 hvalid⟩,
      fun _ _ _ => rfl⟩
    · cases heq
    · cases heq

/-- The bytes written under a name are unique. -/
theorem Stored.data_unique (h : Stored s files) {data data' : List UInt8}
    (hmem : (name, data) ∈ files) (hmem' : (name, data') ∈ files) : data = data' := by
  have heq := List.inj_on_of_nodup_map h.names hmem hmem' rfl
  exact congrArg Prod.snd heq

theorem Holds.agrees_read (h : Holds dev files) (behind : ℕ → UInt8) (name : CStr) (outCap : ℕ) :
    (Call.read behind name outCap).Agrees ⟨dev, files⟩ := by
  simp only [Call.Agrees, Tracked.names, readFile_result h.sound]
  by_cases hmem : name ∈ files.map Prod.fst
  · obtain ⟨⟨_, data⟩, hf, rfl⟩ := List.mem_map.mp hmem
    rw [h.stored.lookup_of_mem hf]
    by_cases hcap : outCap < data.length
    · rw [if_pos hcap]
      refine ⟨⟨fun heq => ?_, fun hnot => absurd hmem hnot⟩,
        ⟨fun _ => ⟨data, hf, hcap⟩, fun _ => rfl⟩, ?_⟩
      · cases heq
      · intro data' hf' hcap'
        rw [h.stored.data_unique hf hf'] at hcap
        exact absurd hcap (Nat.not_lt.mpr hcap')
    · rw [if_neg hcap]
      refine ⟨⟨fun heq => ?_, fun hnot => absurd hmem hnot⟩, ⟨fun heq => ?_, ?_⟩, ?_⟩
      · cases heq
      · cases heq
      · rintro ⟨data', hf', hcap'⟩
        rw [← h.stored.data_unique hf hf'] at hcap'
        exact absurd hcap' hcap
      · intro data' hf' _
        rw [h.stored.data_unique hf hf']
  · rw [h.stored.lookup_of_notMem hmem]
    refine ⟨⟨fun _ => hmem, fun _ => rfl⟩, ⟨fun heq => ?_, ?_⟩, ?_⟩
    · cases heq
    · rintro ⟨data, hf, -⟩
      exact absurd (List.mem_map_of_mem hf) hmem
    · intro data hf
      exact absurd (List.mem_map_of_mem hf) hmem

/-- The invariant of the runs. -/
structure Running (x : Tracked) : Prop where
  holds : Holds x.dev x.files
  room : 37 ≤ x.dev.totalBlocks

theorem Running.agrees {x : Tracked} (h : Running x) (c : Call) : c.Agrees x := by
  cases c with
  | write name data => exact h.holds.agrees_write h.room name data
  | read behind name outCap => exact h.holds.agrees_read behind name outCap

theorem Running.step {x : Tracked} (h : Running x) (c : Call) : Running (c.step x) := by
  cases c with
  | write name data =>
    simp only [Call.step]
    rcases h.holds.write_cases h.room name data with ⟨-, -, -, dev', hcall, hholds, htotal⟩ |
      ⟨-, -, hcall⟩ | ⟨-, -, -, hcall⟩ | ⟨-, hcall | hcall⟩
    · rw [hcall, if_pos rfl]
      exact ⟨hholds, htotal.symm ▸ h.room⟩
    all_goals
      rw [hcall, if_neg (by simp)]
      exact h
  | read behind name outCap =>
    simp only [Call.step, readFile_eq h.holds.sound]
    exact h

/-- **A write-once map.**  On a freshly formatted device, in every run of `m16_write_file` and
`m16_read_file`, the calls return what a write-once map with room for twelve files says, and the
files have different inodes and different data blocks. -/
theorem write_once_map (calls : List Call) :
    AllSteps Call.step Call.Agrees calls ⟨(format devInit).2, []⟩ ∧
      AllStates Call.step Separate calls ⟨(format devInit).2, []⟩ := by
  have hholds : Holds (format devInit).2 [] := holds_format (by decide) (by decide) (by decide)
  have hstart : Running ⟨(format devInit).2, []⟩ := by
    refine ⟨hholds, ?_⟩
    rw [format_atRest.1.total]
    decide
  have hstep : ∀ (c : Call) x, Running x → Running (c.step x) := fun c x h => h.step c
  refine ⟨AllSteps.of_step hstep (fun c x h => h.agrees c) hstart, ?_⟩
  exact (AllStates.of_step hstep hstart).mono fun x h => h.holds.separate

end Mcsos.M16
