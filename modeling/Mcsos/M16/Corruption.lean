import Mcsos.Lib.Fold
import Mcsos.M16.Atomicity
import Mcsos.M16.FailClosed

/-!
# One changed byte in a committed journal

A journal was committed and not yet replayed, and one byte of its header, of a descriptor or of a
payload is changed.  The header is covered by its own checksum and the payloads by those in the
descriptors; FNV-1a sees every change of a single byte, since each of its steps can be undone
(`checksum_ne`).  The magic number and the checksum in a descriptor are compared with something
else.  What nothing covers is `target_lba`: a changed target that is still a block of the device is
accepted, and the payload is written there (`corruption_detected`).
-/

namespace Mcsos.M16

open Bytes

variable {dev dev' : Dev} {b b' : ℕ → Block} {tx : Tx} {total n : ℕ}

/-! ## The checksum -/

/-- The factor of FNV-1a is odd, so multiplying with it can be undone. -/
private theorem mul_prime_injective : Function.Injective fun h : UInt32 => h * 16777619 := by
  intro x y hxy
  have hinv : (16777619 : UInt32) * 899433627 = 1 := by decide
  have hback := congrArg (fun z : UInt32 => z * 899433627) hxy
  dsimp only at hback
  rwa [UInt32.mul_assoc, UInt32.mul_assoc, hinv, UInt32.mul_one, UInt32.mul_one] at hback

/-- The checksum sees a change in one place. -/
theorem checksum_ne {src src' : ℕ → UInt8} {j : ℕ} (hj : j < n) (hne : src j ≠ src' j)
    (hsame : ∀ i < n, i ≠ j → src i = src' i) : checksum src n ≠ checksum src' n := by
  refine foldl_range_ne (f := fun h x => (h ^^^ x.toUInt32) * 16777619) ?_ ?_ hj hne hsame _
  · intro x g h hgh
    exact (UInt32.xor_left_inj _).mp (mul_prime_injective hgh)
  · intro h x y hxy
    exact UInt8.toUInt32_inj.mp ((UInt32.xor_right_inj _).mp (mul_prime_injective hxy))

theorem checksum_setByte_ne (c : Block) {off : ℕ} {v : UInt8} (hoff : off < blockSize)
    (hv : v ≠ c.byte off) :
    checksum (c.setByte off v).byte blockSize ≠ checksum c.byte blockSize := by
  refine checksum_ne hoff ?_ fun i _ hi => byte_setByte_of_ne c v hi
  rw [byte_setByte_self c v hoff]
  exact hv

/-! ## The header -/

/-- The checksum of a header sees a change outside its own field. -/
theorem headerChecksum_setByte_ne (h : Block) {off : ℕ} {v : UInt8} (hoff : off < blockSize)
    (houtside : off < 24 ∨ 28 ≤ off) (hv : v ≠ h.byte off) :
    headerChecksum (h.setByte off v) ≠ headerChecksum h := by
  refine checksum_ne hoff ?_ fun i hlt hi => ?_
  · rw [setU32, setU32, byte_splice_of_outside _ _ (by omega), byte_splice_of_outside _
      _ (by omega), byte_setByte_self h v hoff]
    exact hv
  · by_cases hin : 24 ≤ i ∧ i < 24 + 4
    · rw [setU32, setU32, byte_splice_of_inside _ _ hlt hin, byte_splice_of_inside _ _ hlt hin]
    · rw [setU32, setU32, byte_splice_of_outside _ _ (by omega), byte_splice_of_outside _
        _ (by omega), byte_setByte_of_ne h v hi]

/-- A change inside the field is not seen. -/
theorem headerChecksum_setByte_field (h : Block) {off : ℕ} (v : UInt8) (hlow : 24 ≤ off)
    (hhigh : off < 28) :
    headerChecksum (h.setByte off v) = headerChecksum h := by
  have hcovered : (h.setByte off v).setU32 24 0 = h.setU32 24 0 := by
    apply ext_byte
    intro i hi
    by_cases hin : 24 ≤ i ∧ i < 24 + 4
    · rw [setU32, setU32, byte_splice_of_inside _ _ hi hin, byte_splice_of_inside _ _ hi hin]
    · rw [setU32, setU32, byte_splice_of_outside _ _ (by omega), byte_splice_of_outside _
        _ (by omega), byte_setByte_of_ne h v (by omega)]
  rw [headerChecksum, hcovered, headerChecksum]

/-- The header passes the checksum test of `m16_journal_recover`. -/
def HeaderIntact (h : Block) : Prop := (headerChecksum h).toNat = h.u32 24

/-- A change is noticed wherever it is. -/
theorem not_headerIntact_setByte {h : Block} (hintact : HeaderIntact h) {off : ℕ} {v : UInt8}
    (hoff : off < blockSize) (hv : v ≠ h.byte off) : ¬ HeaderIntact (h.setByte off v) := by
  intro hintact'
  by_cases hfield : 24 ≤ off ∧ off < 28
  · -- the checksum field is not covered, but it is what the checksum is compared with
    have hne : (h.setByte off v).u32 24 ≠ h.u32 24 := word_setByte_ne h hoff hfield.1 hfield.2 hv
    rw [HeaderIntact, headerChecksum_setByte_field h v hfield.1 hfield.2] at hintact'
    exact hne (hintact'.symm.trans hintact)
  · have hstored : (h.setByte off v).u32 24 = h.u32 24 := word_setByte_of_outside h v (by omega)
    have hequal : headerChecksum (h.setByte off v) = headerChecksum h :=
      UInt32.toNat_inj.mp (by rw [hintact', hstored, hintact])
    exact headerChecksum_setByte_ne h hoff (by omega) hv hequal

private theorem magic_byte_ne_zero {h : Block} (hmagic : h.u64 0 = jmagic) {i : ℕ} (hi : i < 2) :
    h.byte i ≠ 0 := by
  have hword : word h.byte 8 0 = word (wordBytes jmagic) 8 0 := by
    rw [word_wordBytes]
    exact hmagic
  have hbyte := byte_eq_of_word_eq hword i (by omega)
  rw [Nat.zero_add] at hbyte
  rw [hbyte]
  obtain rfl | rfl : i = 0 ∨ i = 1 := by omega
  · decide
  · decide

/-- A committed header with one byte changed does not become an empty one. -/
theorem setByte_not_empty {h : Block} (haccepted : headerAccepted h) (off : ℕ) (v : UInt8) :
    ¬ headerEmpty (h.setByte off v) := by
  rintro ⟨hzero, -⟩
  have hmagic : h.u64 0 = jmagic := not_not.mp (not_or.mp haccepted.1).1
  -- the magic number has more than one byte that is not zero
  obtain ⟨i, hi, hne⟩ : ∃ i < 2, i ≠ off := by
    by_cases hoff : off = 0
    · exact ⟨1, by omega, by omega⟩
    · exact ⟨0, by omega, by omega⟩
  have hbyte := (word_eq_zero_iff _ _ _).mp hzero i (by omega)
  rw [Nat.zero_add, byte_setByte_of_ne h v hne] at hbyte
  exact magic_byte_ne_zero hmagic hi hbyte

/-- A committed header with one byte changed does not pass the checks. -/
theorem setByte_not_accepted {h : Block} (haccepted : headerAccepted h) {off : ℕ} {v : UInt8}
    (hoff : off < blockSize) (hv : v ≠ h.byte off) : ¬ headerAccepted (h.setByte off v) :=
  fun haccepted' =>
  not_headerIntact_setByte (not_not.mp haccepted.2) hoff hv (not_not.mp haccepted'.2)

/-! ## Replaying a journal that need not be good -/

theorem corruptAfter_iff (b : ℕ → Block) (i n : ℕ) :
    CorruptAfter total b i n ↔
      (∀ j < n, RecordOk total (copyRecords b i j) (i + j)) ∧
        RecordCorrupt total (copyRecords b i n) (i + n) := by
  induction n generalizing b i with
  | zero => simp [CorruptAfter, copyRecords]
  | succ n ih =>
      have hshift : ∀ j, i + 1 + j = i + (j + 1) := fun j => by omega
      have hcopy : ∀ j, copyRecords (copyRecord b i) (i + 1) j = copyRecords b i (j + 1) :=
        fun _ => rfl
      simp only [CorruptAfter, ih, hshift, hcopy]
      constructor
      · rintro ⟨hfirst, hrest, hcorrupt⟩
        refine ⟨fun j hj => ?_, hcorrupt⟩
        cases j with
        | zero => exact hfirst
        | succ j => exact hrest j (by omega)
      · rintro ⟨hgood, hcorrupt⟩
        exact ⟨hgood 0 (Nat.succ_pos n), fun j hj => hgood (j + 1) (by omega), hcorrupt⟩

theorem RecordOk.not_corrupt {i : ℕ} (h : RecordOk total b i) : ¬ RecordCorrupt total b i := by
  rintro ⟨-, hmagic | htarget | ⟨-, hsum⟩⟩
  · exact hmagic h.magic
  · exact htarget h.target
  · exact hsum h.checksum

theorem recordOk_or_corrupt {i : ℕ} (hread : blockExists total (dataLba i)) :
    RecordOk total b i ∨ RecordCorrupt total b i := by
  by_cases hmagic : (b (descLba i)).u64 0 = jmagic
  · by_cases htarget : blockExists total ((b (descLba i)).u32 8)
    · by_cases hsum : (checksum (b (dataLba i)).byte blockSize).toNat = (b (descLba i)).u32 12
      · exact Or.inl ⟨hread, hmagic, htarget, hsum⟩
      · exact Or.inr ⟨blockExists_descLba hread, Or.inr (Or.inr ⟨hread, hsum⟩)⟩
    · exact Or.inr ⟨blockExists_descLba hread, Or.inr (Or.inl htarget)⟩
  · exact Or.inr ⟨blockExists_descLba hread, Or.inl hmagic⟩

/-- The replay loop with any fault injection counter: it stops at a corrupt record, or it copies as
many records as the device accepts writes. -/
theorem recoverRecords_cases {remaining i : ℕ}
    (hread : ∀ j < remaining, blockExists dev.totalBlocks (dataLba (i + j))) :
    (∃ j < remaining, j ≤ dev.accepted remaining ∧
        CorruptAfter dev.totalBlocks dev.blocks i j ∧
        (recoverRecords remaining i dev).1 = .error .corrupt) ∨
      ((recoverRecords remaining i dev).1 ≠ .error .corrupt ∧
        (recoverRecords remaining i dev).2.blocks =
          copyRecords dev.blocks i (dev.accepted remaining) ∧
        ∀ j < remaining, j ≤ dev.accepted remaining →
          RecordOk dev.totalBlocks (copyRecords dev.blocks i j) (i + j)) := by
  induction remaining generalizing dev i with
  | zero =>
      have hnone : dev.accepted 0 = 0 := Nat.le_zero.mp (accepted_le dev 0)
      refine Or.inr ⟨(fun h => by cases h), ?_, fun j hj => absurd hj (Nat.not_lt_zero j)⟩
      rw [hnone]
      rfl
  | succ remaining ih =>
      have hfirst : blockExists dev.totalBlocks (dataLba i) := hread 0 (Nat.succ_pos _)
      rcases recordOk_or_corrupt hfirst with hok | hcorrupt
      case inr =>
        refine Or.inl ⟨0, Nat.succ_pos _, Nat.zero_le _, hcorrupt, ?_⟩
        rw [recoverRecords, Act.bind_of_error (recoverRecord_of_corrupt hcorrupt)]
      have hstep := recoverRecord_of_good hok
      generalize htarget : (dev.blocks (descLba i)).u32 8 = target at hstep
      have hvalid : dev.validLba target := htarget ▸ hok.target
      by_cases hfail : dev.failAfter = 0
      · have hnone : dev.accepted (remaining + 1) = 0 := by
          rw [Dev.accepted, if_neg (by omega), hfail]
          exact Nat.min_zero _
        rw [writeBlock_of_exhausted hvalid hfail] at hstep
        rw [recoverRecords, Act.bind_of_error hstep, hnone]
        refine Or.inr ⟨(fun h => by cases h), rfl, fun j _ hj => ?_⟩
        obtain rfl := Nat.le_zero.mp hj
        exact hok
      · rw [writeBlock_of_valid hvalid hfail] at hstep
        have hcopied : (dev.store target (dev.blocks (dataLba i))).blocks =
            copyRecord dev.blocks i := by
          rw [store_blocks, copyRecord, htarget]
        have hrest := @ih (dev.store target (dev.blocks (dataLba i))) (i + 1) fun j hj => by
          have := hread (j + 1) (by omega)
          rwa [Nat.add_assoc, Nat.add_comm 1]
        rw [hcopied, store_totalBlocks] at hrest
        rw [recoverRecords, Act.bind_of_ok hstep, accepted_store hfail target
          (dev.blocks (dataLba i))]
        rcases hrest with ⟨j, hj, hle, hcorrupt, hresult⟩ | ⟨hresult, hblocks, hgood⟩
        · exact Or.inl ⟨j + 1, by omega, by omega, ⟨hok, hcorrupt⟩, hresult⟩
        · refine Or.inr ⟨hresult, hblocks, fun j hj hle => ?_⟩
          cases j with
          | zero => exact hok
          | succ j =>
              have := hgood j (by omega) (by omega)
              rwa [Nat.add_assoc, Nat.add_comm 1] at this

/-- Recovery accepts the header, which announces `n` records, and can read all of them. -/
structure Announces (dev : Dev) (n : ℕ) : Prop where
  valid : dev.validLba journalStart
  nonempty : ¬ headerEmpty (dev.blocks journalStart)
  accepted : headerAccepted (dev.blocks journalStart)
  count : (dev.blocks journalStart).u32 20 = n
  readable : ∀ j < n, blockExists dev.totalBlocks (dataLba j)

private theorem journalClear_outside (dev : Dev) {lba : ℕ} (hlba : ¬ inJournal lba) :
    (journalClear dev).2.blocks lba = dev.blocks lba := by
  have hne : lba ≠ journalStart := (ne_of_outside hlba inJournal_journalStart).symm
  unfold journalClear writeBlock
  split_ifs
  · rfl
  · exact Function.update_of_ne hne _ _
  · rfl

/-- What recovery reports and leaves outside the journal. -/
theorem Announces.recover (h : Announces dev n) :
    (∃ j < n, j ≤ dev.accepted n ∧ CorruptAfter dev.totalBlocks dev.blocks 0 j ∧
        (journalRecover dev).1 = .error .corrupt) ∨
      ((journalRecover dev).1 ≠ .error .corrupt ∧
        (∀ lba, ¬ inJournal lba → (journalRecover dev).2.blocks lba =
          copyRecords dev.blocks 0 (dev.accepted n) lba) ∧
        ∀ j < n, j ≤ dev.accepted n → RecordOk dev.totalBlocks (copyRecords dev.blocks 0 j) j) := by
  have hread : ∀ j < n, blockExists dev.totalBlocks (dataLba (0 + j)) := fun j hj =>
    (Nat.zero_add j).symm ▸ h.readable j hj
  have hloop := recoverRecords_cases hread
  rw [journalRecover_of_accepted h.valid h.nonempty h.accepted, h.count, Act.bind_apply]
  simp only [Nat.zero_add] at hloop
  cases hrun : recoverRecords n 0 dev with
  | mk r dev' =>
      rw [hrun] at hloop
      cases r with
      | error e => exact hloop.imp_right fun hrest =>
          ⟨hrest.1, fun lba _ => by rw [hrest.2.1], hrest.2.2⟩
      | ok u =>
          rcases hloop with ⟨j, -, -, -, hresult⟩ | ⟨-, hblocks, hgood⟩
          · cases hresult
          · refine Or.inr ⟨journalClear_ne_corrupt dev', fun lba hlba => ?_, hgood⟩
            exact (journalClear_outside dev' hlba).trans (congrFun hblocks lba)

/-! ## Journals that are replayed as they stand -/

/-- The journal holds the records of `tx`, and none of them is aimed at the blocks of a later
one. -/
structure Logged (b : ℕ → Block) (tx : Tx) : Prop where
  magic : ∀ i r, tx[i]? = some r → (b (descLba i)).u64 0 = jmagic
  target : ∀ i r, tx[i]? = some r → (b (descLba i)).u32 8 = r.targetLba
  checksum : ∀ i r, tx[i]? = some r →
    (b (descLba i)).u32 12 = (checksum r.payload.byte blockSize).toNat
  data : ∀ i r, tx[i]? = some r → b (dataLba i) = r.payload
  clear : ∀ i r, tx[i]? = some r → ∀ j, i < j → j < tx.length →
    r.targetLba ≠ descLba j ∧ r.targetLba ≠ dataLba j

theorem mem_homeWrites_take {w : ℕ × Block} (h : w ∈ homeWrites (tx.take n)) :
    ∃ i r, i < n ∧ tx[i]? = some r ∧ w = (r.targetLba, r.payload) := by
  obtain ⟨r, hr, rfl⟩ := List.mem_map.mp h
  obtain ⟨i, hi⟩ := List.mem_iff_getElem?.mp hr
  rw [List.getElem?_take] at hi
  split at hi
  case isTrue hlt => exact ⟨i, r, hlt, hi, rfl⟩
  case isFalse => cases hi

theorem homeWrites_take_succ (hn : n < tx.length) :
    homeWrites (tx.take (n + 1)) = homeWrites (tx.take n) ++
      [(tx[n].targetLba, tx[n].payload)] := by
  rw [List.take_succ_eq_append_getElem hn]
  exact List.map_append

/-- The blocks of a record are as they were when its turn comes. -/
theorem Logged.kept (h : Logged b tx) (hn : n < tx.length) :
    applyWrites (homeWrites (tx.take n)) b (descLba n) = b (descLba n) ∧
      applyWrites (homeWrites (tx.take n)) b (dataLba n) = b (dataLba n) := by
  constructor
  · refine applyWrites_of_ne (fun w hw => ?_) b
    obtain ⟨i, r, hi, hr, rfl⟩ := mem_homeWrites_take hw
    exact (h.clear i r hr n hi hn).1
  · refine applyWrites_of_ne (fun w hw => ?_) b
    obtain ⟨i, r, hi, hr, rfl⟩ := mem_homeWrites_take hw
    exact (h.clear i r hr n hi hn).2

theorem Logged.copyRecords (h : Logged b tx) (hn : n ≤ tx.length) :
    copyRecords b 0 n = applyWrites (homeWrites (tx.take n)) b := by
  induction n with
  | zero => rfl
  | succ n ih =>
      have hr : tx[n]? = some tx[n] := List.getElem?_eq_getElem hn
      rw [copyRecords_succ, Nat.zero_add, copyRecord, ih (by omega), (h.kept hn).1, (h.kept hn).2,
        h.target n _ hr, h.data n _ hr, homeWrites_take_succ hn, applyWrites_append,
        applyWrites_singleton]

theorem Logged.recordOk (h : Logged b tx) {r : Jrec} (hr : tx[n]? = some r)
    (hread : blockExists total (dataLba n)) (htarget : blockExists total r.targetLba) :
    RecordOk total (M16.copyRecords b 0 n) n := by
  have hn : n < tx.length := (List.getElem?_eq_some_iff.mp hr).1
  have hdesc := (h.kept hn).1
  have hdata := (h.kept hn).2
  rw [← h.copyRecords hn.le] at hdesc hdata
  refine ⟨hread, ?_, ?_, ?_⟩
  · rw [hdesc, h.magic n r hr]
  · rwa [hdesc, h.target n r hr]
  · rw [hdesc, hdata, h.data n r hr, h.checksum n r hr]

/-- A journal that is replayed as it stands: recovery does not report corruption, and copies the
records as far as the device accepts writes. -/
theorem Logged.recover (h : Logged dev.blocks tx) (hann : Announces dev tx.length)
    (htargets : ∀ r ∈ tx, dev.validLba r.targetLba) :
    (journalRecover dev).1 ≠ .error .corrupt ∧
      ∀ lba, ¬ inJournal lba → (journalRecover dev).2.blocks lba =
        applyWrites (homeWrites (tx.take (dev.accepted tx.length))) dev.blocks lba := by
  rcases hann.recover with ⟨j, hj, -, hcorrupt, -⟩ | ⟨hresult, hblocks, -⟩
  · have hr : tx[j]? = some tx[j] := List.getElem?_eq_getElem hj
    have hok := h.recordOk hr (hann.readable j hj) (htargets _ (List.getElem_mem hj))
    have hbad := ((corruptAfter_iff _ _ _).mp hcorrupt).2
    rw [Nat.zero_add] at hbad
    exact absurd hbad hok.not_corrupt
  · refine ⟨hresult, fun lba hlba => ?_⟩
    rw [hblocks lba hlba, h.copyRecords (accepted_le dev _)]

theorem Logged.take (h : Logged b tx) (k : ℕ) : Logged b (tx.take k) := by
  have hget : ∀ {i : ℕ} {r}, (tx.take k)[i]? = some r → tx[i]? = some r := by
    intro i r hr
    rw [List.getElem?_take] at hr
    split at hr
    case isTrue => exact hr
    case isFalse => cases hr
  refine ⟨fun i r hr => h.magic i r (hget hr), fun i r hr => h.target i r (hget hr),
    fun i r hr => h.checksum i r (hget hr), fun i r hr => h.data i r (hget hr), ?_⟩
  intro i r hr j hij hj
  rw [List.length_take] at hj
  exact h.clear i r (hget hr) j hij (by omega)

/-- Only the fields that recovery reads matter. -/
theorem Logged.of_fields (h : Logged b tx)
    (hdesc : ∀ i < tx.length, (b' (descLba i)).u64 0 = (b (descLba i)).u64 0 ∧
      (b' (descLba i)).u32 8 = (b (descLba i)).u32 8 ∧
      (b' (descLba i)).u32 12 = (b (descLba i)).u32 12)
    (hdata : ∀ i < tx.length, b' (dataLba i) = b (dataLba i)) : Logged b' tx := by
  have hlt : ∀ {i : ℕ} {r}, tx[i]? = some r → i < tx.length :=
    fun hr => (List.getElem?_eq_some_iff.mp hr).1
  refine ⟨?_, ?_, ?_, ?_, h.clear⟩
  · intro i r hr
    rw [(hdesc i (hlt hr)).1, h.magic i r hr]
  · intro i r hr
    rw [(hdesc i (hlt hr)).2.1, h.target i r hr]
  · intro i r hr
    rw [(hdesc i (hlt hr)).2.2, h.checksum i r hr]
  · intro i r hr
    rw [hdata i (hlt hr), h.data i r hr]

/-! ## A committed journal before and after the change -/

/-- The journal of `tx` is committed and waits for its recovery. -/
structure Pending (dev : Dev) (tx : Tx) : Prop where
  committed : Committed dev.blocks tx
  txOk : TxOk dev tx
  start : dev.validLba journalStart
  readable : ∀ j < tx.length, blockExists dev.totalBlocks (dataLba j)

theorem writeAll_ok {ws : List (ℕ × Block)} (h : writeAll ws dev = (.ok (), dev')) :
    (∀ w ∈ ws, dev.validLba w.1) ∧ dev' = dev.storeAll ws := by
  induction ws generalizing dev with
  | nil =>
      obtain ⟨-, rfl⟩ := Prod.mk.inj h
      exact ⟨fun w hw => absurd hw List.not_mem_nil, rfl⟩
  | cons w ws ih =>
      rw [writeAll] at h
      obtain ⟨_, next, hwrite, hrest⟩ := Act.bind_eq_ok h
      unfold writeBlock at hwrite
      split_ifs at hwrite with hvalid hfail
      · cases hwrite
      · obtain ⟨-, rfl⟩ := Prod.mk.inj hwrite
        obtain ⟨htail, rfl⟩ := ih hrest
        refine ⟨fun v hv => ?_, rfl⟩
        rcases List.mem_cons.mp hv with rfl | hv
        · exact hvalid
        · exact htail v hv
      · cases hwrite

/-- A commit that was stopped after its commit record and reports success. -/
theorem pending_of_commit {d : Dev} {seq : ℕ} (hvalid : ∀ r ∈ tx, d.validLba r.targetLba)
    (houtside : ∀ r ∈ tx, ¬ inJournal r.targetLba)
    (hcommit : journalCommit tx seq true d = (.ok (), dev)) :
    Pending dev tx := by
  have hcount : tx.length ≤ journalMaxRecords := by
    rw [journalCommit] at hcommit
    exact Nat.not_lt.mp (Act.failIf_bind_eq_ok hcommit).1
  rw [journalCommit_eq hcount] at hcommit
  obtain ⟨hwrites, rfl⟩ := writeAll_ok hcommit
  have hlog : commitWrites tx seq true = logWrites tx seq := by simp [commitWrites]
  rw [hlog] at hwrites ⊢
  have htotal := storeAll_totalBlocks d (logWrites tx seq)
  refine ⟨?_, ⟨hcount, fun r hr => ?_, houtside⟩, ?_, fun j hj => ?_⟩
  · rw [storeAll_blocks]
    exact (replayable_logWrites hcount seq d.blocks).committed
  · rw [Dev.validLba, htotal]
    exact hvalid r hr
  · rw [Dev.validLba, htotal]
    exact hwrites _ List.mem_cons_self
  · rw [htotal]
    have hmem : (dataLba j, tx[j].payload) ∈ recordWrites 0 tx := by
      have := mem_recordWrites (i := 0) (List.getElem?_eq_getElem hj)
      rwa [Nat.zero_add] at this
    exact hwrites _ (List.mem_cons_of_mem _ (List.mem_append_left _ hmem))

theorem Pending.announces (h : Pending dev tx) : Announces dev tx.length := by
  obtain ⟨seq, hseq⟩ := h.committed.header
  refine ⟨h.start, ?_, ?_, ?_, h.readable⟩
  · rw [hseq]
    exact commitHeader_not_empty seq _
  · rw [hseq]
    exact commitHeader_accepted seq h.txOk.count
  · rw [hseq, commitHeader_count seq h.txOk.count]

theorem Pending.logged (h : Pending dev tx) : Logged dev.blocks tx := by
  refine ⟨fun i r hr => ?_, fun i r hr => ?_, fun i r hr => ?_, h.committed.data, ?_⟩
  · rw [h.committed.desc i r hr, descriptor_magic]
  · have hsmall : r.targetLba < 2 ^ 32 :=
      (h.txOk.valid r (List.mem_of_getElem? hr)).2.trans (by decide)
    rw [h.committed.desc i r hr, descriptor_target, Nat.mod_eq_of_lt hsmall]
  · rw [h.committed.desc i r hr, descriptor_checksum]
  · intro i r hr j _ hj
    have hin := inJournal_record (hj.trans_le h.txOk.count)
    have hout := h.txOk.outside r (List.mem_of_getElem? hr)
    exact ⟨(ne_of_outside hout hin.1).symm, (ne_of_outside hout hin.2).symm⟩

/-- The device with one byte of one block changed. -/
def Dev.changeByte (dev : Dev) (lba off : ℕ) (v : UInt8) : Dev :=
  { dev with blocks := Function.update dev.blocks lba ((dev.blocks lba).setByte off v) }

/-- The change is noticed, or it makes no difference: recovery of `dev'` reports corruption, or
leaves outside the journal what recovery of `dev` leaves there. -/
def Detected (dev dev' : Dev) : Prop :=
  (journalRecover dev').1 = .error .corrupt ∨
    ∀ lba, ¬ inJournal lba → (journalRecover dev').2.blocks lba = (journalRecover dev).2.blocks lba

variable {lba off : ℕ} {v : UInt8}

theorem changeByte_of_ne {x : ℕ} (h : x ≠ lba) :
    (dev.changeByte lba off v).blocks x = dev.blocks x :=
  Function.update_of_ne h _ _

theorem changeByte_self : (dev.changeByte lba off v).blocks lba = (dev.blocks lba).setByte off v :=
  Function.update_self _ _ _

/-- A change of the header is noticed. -/
theorem Pending.detected_header (h : Pending dev tx) (hoff : off < blockSize)
    (hv : v ≠ (dev.blocks journalStart).byte off) :
    Detected dev (dev.changeByte journalStart off v) := by
  have hann := h.announces
  have hstart : (dev.changeByte journalStart off v).validLba journalStart := hann.valid
  left
  rw [journalRecover_of_rejected hstart]
  · rw [changeByte_self]
    exact setByte_not_empty hann.accepted off v
  · rw [changeByte_self]
    exact setByte_not_accepted hann.accepted hoff hv

/-- A change behind the header leaves the number of records as it was. -/
theorem Announces.changeByte (h : Announces dev n) (hlba : lba ≠ journalStart) :
    Announces (dev.changeByte lba off v) n := by
  have hheader : (dev.changeByte lba off v).blocks journalStart = dev.blocks journalStart :=
    changeByte_of_ne (Ne.symm hlba)
  exact ⟨h.valid, hheader.symm ▸ h.nonempty, hheader.symm ▸ h.accepted, hheader.symm ▸ h.count,
    h.readable⟩

theorem applyWrites_changeByte (ws : List (ℕ × Block)) (hlba : inJournal lba) {x : ℕ}
    (hx : ¬ inJournal x) :
    applyWrites ws (dev.changeByte lba off v).blocks x = applyWrites ws dev.blocks x :=
  applyWrites_congr (Or.inr (changeByte_of_ne (ne_of_outside hx hlba).symm))

/-- Behind the header, a change is noticed or harmless if the records that are replayed say so. -/
theorem Pending.detected_iff (h : Pending dev tx) (hlba : lba ≠ journalStart) :
    Detected dev (dev.changeByte lba off v) ↔
      (∃ j < tx.length, j ≤ dev.accepted tx.length ∧
        CorruptAfter dev.totalBlocks (dev.changeByte lba off v).blocks 0 j) ∨
      ∀ x, ¬ inJournal x →
        copyRecords (dev.changeByte lba off v).blocks 0 (dev.accepted tx.length) x =
          copyRecords dev.blocks 0 (dev.accepted tx.length) x := by
  obtain ⟨-, hold⟩ := h.logged.recover h.announces h.txOk.valid
  rw [← h.logged.copyRecords (accepted_le dev _)] at hold
  have hannounces : Announces (dev.changeByte lba off v) tx.length := h.announces.changeByte hlba
  have hnew := hannounces.recover
  have hroom : (dev.changeByte lba off v).accepted tx.length = dev.accepted tx.length := rfl
  have htotal : (dev.changeByte lba off v).totalBlocks = dev.totalBlocks := rfl
  rw [hroom, htotal] at hnew
  rcases hnew with ⟨j, hj, hle, hcorrupt, hresult⟩ | ⟨hresult, hblocks, hgood⟩
  · exact ⟨fun _ => Or.inl ⟨j, hj, hle, hcorrupt⟩, fun _ => Or.inl hresult⟩
  · have hnone : ¬ ∃ j < tx.length, j ≤ dev.accepted tx.length ∧
        CorruptAfter dev.totalBlocks (dev.changeByte lba off v).blocks 0 j := by
      rintro ⟨j, hj, hle, hcorrupt⟩
      have hbad := ((corruptAfter_iff _ _ _).mp hcorrupt).2
      rw [Nat.zero_add] at hbad
      exact (hgood j hj hle).not_corrupt hbad
    constructor
    · intro hdetected
      refine Or.inr fun x hx => ?_
      rw [← hblocks x hx, ← hold x hx]
      exact (hdetected.resolve_left hresult) x hx
    · intro hsame
      refine Or.inr fun x hx => ?_
      rw [hblocks x hx, hold x hx]
      exact (hsame.resolve_left hnone) x hx

/-- A change that leaves all fields alone that recovery reads. -/
theorem Pending.detected_of_logged (h : Pending dev tx) (hlba : lba ≠ journalStart)
    (hin : inJournal lba) (hlogged : Logged (dev.changeByte lba off v).blocks tx) :
    Detected dev (dev.changeByte lba off v) := by
  refine (h.detected_iff hlba).mpr (Or.inr fun x hx => ?_)
  rw [hlogged.copyRecords (accepted_le dev _), h.logged.copyRecords (accepted_le dev _),
    applyWrites_changeByte _ hin hx]

theorem RecordCorrupt.congr {i : ℕ} (h : RecordCorrupt total b i)
    (hdesc : b' (descLba i) = b (descLba i)) (hdata : b' (dataLba i) = b (dataLba i)) :
    RecordCorrupt total b' i := by
  unfold RecordCorrupt
  rw [hdesc, hdata]
  exact h

section Record

variable {i : ℕ} (h : Pending dev tx) (hi : i < tx.length)
  (hlba : lba = descLba i ∨ lba = dataLba i)

include h hi hlba

private theorem record_inJournal : inJournal lba ∧ lba ≠ journalStart := by
  have hin := inJournal_record (hi.trans_le h.txOk.count)
  rcases hlba with rfl | rfl
  · exact ⟨hin.1, by simp only [descLba, journalStart]; omega⟩
  · exact ⟨hin.2, by simp only [dataLba, descLba, journalStart]; omega⟩

omit h hi in
private theorem record_ne {j : ℕ} (hj : j ≠ i) : descLba j ≠ lba ∧ dataLba j ≠ lba := by
  simp only [dataLba, descLba] at hlba ⊢
  omega

/-- The records in front of the changed one are as they were. -/
private theorem logged_take : Logged (dev.changeByte lba off v).blocks (tx.take i) := by
  have hbefore : ∀ j < (tx.take i).length, j ≠ i := by
    intro j hj
    rw [List.length_take] at hj
    omega
  refine (h.logged.take i).of_fields (fun j hj => ?_) fun j hj => ?_
  · rw [changeByte_of_ne (record_ne hlba (hbefore j hj)).1]
    exact ⟨rfl, rfl, rfl⟩
  · exact changeByte_of_ne (record_ne hlba (hbefore j hj)).2

/-- Up to the changed record nothing is different. -/
private theorem copyRecords_before {k : ℕ} (hk : k ≤ i) {x : ℕ} (hx : ¬ inJournal x) :
    copyRecords (dev.changeByte lba off v).blocks 0 k x = copyRecords dev.blocks 0 k x := by
  have hlength : k ≤ (tx.take i).length := by
    rw [List.length_take]
    omega
  rw [(logged_take h hi hlba).copyRecords hlength, h.logged.copyRecords (by omega), List.take_take,
    Nat.min_eq_left hk, applyWrites_changeByte _ (record_inJournal h hi hlba).1 hx]

/-- A change that makes the record corrupt is noticed, or the record is never reached. -/
theorem Pending.detected_of_recordCorrupt
    (hbad : RecordCorrupt dev.totalBlocks (dev.changeByte lba off v).blocks i) :
    Detected dev (dev.changeByte lba off v) := by
  apply (h.detected_iff (record_inJournal h hi hlba).2).mpr
  by_cases hreach : i ≤ dev.accepted tx.length
  · have hlogged : Logged (dev.changeByte lba off v).blocks (tx.take i) := logged_take h hi hlba
    have hcopy := hlogged.copyRecords (n := i) (by rw [List.length_take]; omega)
    rw [List.take_take, Nat.min_self] at hcopy
    have hkept : ∀ x, inJournal x → copyRecords (dev.changeByte lba off v).blocks 0 i x =
        (dev.changeByte lba off v).blocks x := by
      intro x hx
      rw [hcopy]
      refine applyWrites_of_ne (fun w hw => ?_) _
      obtain ⟨j, r, -, hr, rfl⟩ := mem_homeWrites_take hw
      exact (ne_of_outside (h.txOk.outside r (List.mem_of_getElem? hr)) hx).symm
    have hin := inJournal_record (hi.trans_le h.txOk.count)
    refine Or.inl ⟨i, hi, hreach, (corruptAfter_iff _ _ _).mpr ⟨fun j hj => ?_, ?_⟩⟩
    · have hr : (tx.take i)[j]? = some tx[j] := by
        rw [List.getElem?_take_of_lt hj]
        exact List.getElem?_eq_getElem (hj.trans hi)
      rw [Nat.zero_add]
      exact hlogged.recordOk hr (h.readable j (hj.trans hi))
        (h.txOk.valid _ (List.getElem_mem (hj.trans hi)))
    · rw [Nat.zero_add]
      exact hbad.congr (hkept _ hin.1) (hkept _ hin.2)
  · exact Or.inr fun x hx => copyRecords_before h hi hlba (by omega) hx

end Record

/-! ## The bytes of a record -/

theorem descLba_ne_dataLba (i : ℕ) : descLba i ≠ dataLba i := (Nat.lt_succ_self _).ne

section Bytes

variable {i : ℕ} {r : Jrec} (h : Pending dev tx) (hr : tx[i]? = some r)

include h hr

private theorem desc_after : (dev.changeByte (descLba i) off v).blocks (descLba i) =
    (descriptor r).setByte off v := by
  rw [changeByte_self, h.committed.desc i r hr]

private theorem data_after : (dev.changeByte (descLba i) off v).blocks (dataLba i) = r.payload := by
  rw [changeByte_of_ne (descLba_ne_dataLba i).symm, h.committed.data i r hr]

/-- The payload is covered by the checksum in the descriptor. -/
theorem Pending.detected_payload (hoff : off < blockSize) (hv : v ≠ r.payload.byte off) :
    Detected dev (dev.changeByte (dataLba i) off v) := by
  have hi : i < tx.length := (List.getElem?_eq_some_iff.mp hr).1
  have hread := h.readable i hi
  refine h.detected_of_recordCorrupt hi (Or.inr rfl)
    ⟨blockExists_descLba hread, Or.inr (Or.inr ⟨hread, ?_⟩)⟩
  rw [changeByte_self, changeByte_of_ne (descLba_ne_dataLba i), h.committed.desc i r hr,
    h.committed.data i r hr, descriptor_checksum]
  exact fun heq => checksum_setByte_ne r.payload hoff hv (UInt32.toNat_inj.mp heq)

/-- The magic number and the checksum of a descriptor are compared with something else. -/
theorem Pending.detected_descriptor (hoff : off < 8 ∨ 12 ≤ off ∧ off < 16)
    (hv : v ≠ (descriptor r).byte off) : Detected dev (dev.changeByte (descLba i) off v) := by
  have hi : i < tx.length := (List.getElem?_eq_some_iff.mp hr).1
  have hread := h.readable i hi
  refine h.detected_of_recordCorrupt hi (Or.inl rfl) ⟨blockExists_descLba hread, ?_⟩
  rw [desc_after h hr, data_after h hr]
  rcases hoff with hmagic | ⟨hlow, hhigh⟩
  · left
    have hne : ((descriptor r).setByte off v).u64 0 ≠ (descriptor r).u64 0 :=
      word_setByte_ne _ (by omega) (Nat.zero_le _) (by omega) hv
    rwa [descriptor_magic] at hne
  · right; right
    have hne : ((descriptor r).setByte off v).u32 12 ≠ (descriptor r).u32 12 :=
      word_setByte_ne _ (by omega) hlow hhigh hv
    rw [descriptor_checksum] at hne
    exact ⟨hread, Ne.symm hne⟩

/-- The rest of a descriptor block is not read. -/
theorem Pending.detected_padding (hoff : 16 ≤ off) :
    Detected dev (dev.changeByte (descLba i) off v) := by
  have hi : i < tx.length := (List.getElem?_eq_some_iff.mp hr).1
  obtain ⟨hin, hstart⟩ := record_inJournal h hi (Or.inl rfl)
  refine h.detected_of_logged hstart hin (h.logged.of_fields (fun j hj => ?_) fun j hj => ?_)
  · by_cases hji : j = i
    · subst hji
      rw [desc_after h hr, h.committed.desc j r hr]
      exact ⟨word_setByte_of_outside _ v (by omega), word_setByte_of_outside _ v (by omega),
        word_setByte_of_outside _ v (by omega)⟩
    · rw [changeByte_of_ne (record_ne (Or.inl rfl) hji).1]
      exact ⟨rfl, rfl, rfl⟩
  · refine changeByte_of_ne ?_
    simp only [dataLba, descLba]
    omega

end Bytes

/-! ## A changed target -/

/-- The target in the descriptor of `r` with byte `off` changed to `v`. -/
def changedTarget (r : Jrec) (off : ℕ) (v : UInt8) : ℕ := ((descriptor r).setByte off v).u32 8

/-- The block `t` belongs to a record behind record `i` and before record `n`. -/
def HitsLater (i n t : ℕ) : Prop := ∃ j, i < j ∧ j < n ∧ (t = descLba j ∨ t = dataLba j)

/-- A block of the journal belongs to one record. -/
theorem hit_unique {j k t : ℕ} (hj : t = descLba j ∨ t = dataLba j)
    (hk : t = descLba k ∨ t = dataLba k) : j = k := by
  simp only [dataLba, descLba] at hj hk
  omega

/-- The payload of `r` passes the checks of recovery where it stands in the block `t` of record `j`,
which is `s`. -/
structure Fits (dev : Dev) (r s : Jrec) (j t : ℕ) : Prop where
  desc : t = descLba j → r.payload.u64 0 = jmagic ∧ dev.validLba (r.payload.u32 8) ∧
    (checksum s.payload.byte blockSize).toNat = r.payload.u32 12
  data : t = dataLba j → checksum r.payload.byte blockSize = checksum s.payload.byte blockSize

/-- Record `i` makes no difference at block `x`: a later record is written there, or the block holds
the payload when the turn of the record comes. -/
def NoMatter (dev : Dev) (tx : Tx) (i : ℕ) (r : Jrec) (x : ℕ) : Prop :=
  (∃ s ∈ (tx.take (dev.accepted tx.length)).drop (i + 1), s.targetLba = x) ∨
    applyWrites (homeWrites (tx.take i)) dev.blocks x = r.payload

theorem exists_mem_homeWrites_iff {x : ℕ} :
    (∃ w ∈ homeWrites tx, w.1 = x) ↔ ∃ s ∈ tx, s.targetLba = x := by
  simp only [homeWrites, List.mem_map, exists_exists_and_eq_and]

section Target

variable {i : ℕ} {r : Jrec} (h : Pending dev tx) (hr : tx[i]? = some r) (hlow : 8 ≤ off)
  (hhigh : off < 12)

include h hr hlow hhigh

/-- The changed journal is replayed as the records with the changed target, up to a record that this
overwrites. -/
private theorem logged_retarget (hclear : ¬ HitsLater i n (changedTarget r off v)) :
    Logged (dev.changeByte (descLba i) off v).blocks
      ((tx.set i ⟨changedTarget r off v, r.payload⟩).take n) := by
  have hi : i < tx.length := (List.getElem?_eq_some_iff.mp hr).1
  have hlogged := h.logged
  have hget : ∀ {j : ℕ} {s}, ((tx.set i ⟨changedTarget r off v, r.payload⟩).take n)[j]? = some s →
      j = i ∧ s = ⟨changedTarget r off v, r.payload⟩ ∨ j ≠ i ∧ tx[j]? = some s := by
    intro j s hs
    rw [List.getElem?_take] at hs
    split at hs
    case isFalse => cases hs
    by_cases hji : j = i
    · subst hji
      rw [List.getElem?_set_self hi, Option.some.injEq] at hs
      exact Or.inl ⟨rfl, hs.symm⟩
    · rw [List.getElem?_set_ne (Ne.symm hji)] at hs
      exact Or.inr ⟨hji, hs⟩
  have hother : ∀ {j : ℕ}, j ≠ i →
      (dev.changeByte (descLba i) off v).blocks (descLba j) = dev.blocks (descLba j) ∧
        (dev.changeByte (descLba i) off v).blocks (dataLba j) = dev.blocks (dataLba j) := fun hji =>
    ⟨changeByte_of_ne (record_ne (Or.inl rfl) hji).1,
      changeByte_of_ne (record_ne (Or.inl rfl) hji).2⟩
  refine ⟨?_, ?_, ?_, ?_, ?_⟩
  · intro j s hs
    rcases hget hs with ⟨rfl, rfl⟩ | ⟨hji, hs⟩
    · rw [desc_after h hr, ← descriptor_magic r]
      exact word_setByte_of_outside _ v (by omega)
    · rw [(hother hji).1, hlogged.magic j s hs]
  · intro j s hs
    rcases hget hs with ⟨rfl, rfl⟩ | ⟨hji, hs⟩
    · rw [desc_after h hr]
      rfl
    · rw [(hother hji).1, hlogged.target j s hs]
  · intro j s hs
    rcases hget hs with ⟨rfl, rfl⟩ | ⟨hji, hs⟩
    · rw [desc_after h hr, ← descriptor_checksum r]
      exact word_setByte_of_outside _ v (by omega)
    · rw [(hother hji).1, hlogged.checksum j s hs]
  · intro j s hs
    rcases hget hs with ⟨rfl, rfl⟩ | ⟨hji, hs⟩
    · rw [data_after h hr]
    · rw [(hother hji).2, hlogged.data j s hs]
  · intro j s hs k hjk hk
    rw [List.length_take, List.length_set] at hk
    rcases hget hs with ⟨rfl, rfl⟩ | ⟨hji, hs⟩
    · exact ⟨fun heq => hclear ⟨k, hjk, by omega, Or.inl heq⟩,
        fun heq => hclear ⟨k, hjk, by omega, Or.inr heq⟩⟩
    · exact hlogged.clear j s hs k hjk (by omega)

omit h hlow hhigh in
/-- The writes of the replayed records, split at record `i`. -/
private theorem homeWrites_set {k : ℕ} (hk : i < k) (s : Jrec) :
    homeWrites ((tx.set i s).take k) =
      homeWrites (tx.take i) ++ (s.targetLba, s.payload) ::
      homeWrites ((tx.take k).drop (i + 1)) := by
  have hi : i < (tx.take k).length := by
    rw [List.length_take]
    exact lt_min hk (List.getElem?_eq_some_iff.mp hr).1
  rw [List.take_set, List.set_eq_take_append_cons_drop, if_pos hi, List.take_take,
    Nat.min_eq_left hk.le, homeWrites, homeWrites, homeWrites, List.map_append, List.map_cons]

private theorem changedTarget_ne (hv : v ≠ (descriptor r).byte off) :
    changedTarget r off v ≠ r.targetLba := by
  have hsmall : r.targetLba < 2 ^ 32 :=
    (h.txOk.valid r (List.mem_of_getElem? hr)).2.trans (by decide)
  have hword : changedTarget r off v ≠ (descriptor r).u32 8 :=
    word_setByte_ne _ (by omega) hlow hhigh hv
  rwa [descriptor_target, Nat.mod_eq_of_lt hsmall] at hword

/-- The records that are copied before one is overwritten. -/
private theorem copyRecords_retarget (hn : n ≤ tx.length)
    (hclear : ¬ HitsLater i n (changedTarget r off v)) :
    copyRecords (dev.changeByte (descLba i) off v).blocks 0 n =
      applyWrites (homeWrites ((tx.set i ⟨changedTarget r off v, r.payload⟩).take n))
        (dev.changeByte (descLba i) off v).blocks := by
  rw [(logged_retarget h hr hlow hhigh hclear).copyRecords
      (by rw [List.length_take, List.length_set]; omega), List.take_take, Nat.min_self]

/-- All of them are good. -/
private theorem recordOk_retarget (hvalid : dev.validLba (changedTarget r off v))
    (hclear : ¬ HitsLater i n (changedTarget r off v)) {j : ℕ} (hj : j < n) (hlt : j < tx.length) :
    RecordOk dev.totalBlocks (copyRecords (dev.changeByte (descLba i) off v).blocks 0 j) j := by
  have hlogged := logged_retarget h hr hlow hhigh hclear
  have hlength : j < ((tx.set i ⟨changedTarget r off v, r.payload⟩).take n).length := by
    rw [List.length_take, List.length_set]
    omega
  have hvalids : ∀ s ∈ tx.set i ⟨changedTarget r off v, r.payload⟩, dev.validLba s.targetLba := by
    intro s hs
    rcases List.mem_or_eq_of_mem_set hs with hs | rfl
    · exact h.txOk.valid s hs
    · exact hvalid
  exact hlogged.recordOk (List.getElem?_eq_getElem hlength) (h.readable j hlt)
    (hvalids _ (List.mem_of_mem_take (List.getElem_mem hlength)))

/-- As long as no record is overwritten that is replayed, no harm is done exactly if the record
matters neither at the old nor at the new target. -/
private theorem copies_retarget_iff (hv : v ≠ (descriptor r).byte off)
    (hreach : i < dev.accepted tx.length)
    (hclear : ¬ HitsLater i (dev.accepted tx.length) (changedTarget r off v)) :
    (∀ x, ¬ inJournal x →
      copyRecords (dev.changeByte (descLba i) off v).blocks 0 (dev.accepted tx.length) x =
        copyRecords dev.blocks 0 (dev.accepted tx.length) x) ↔
      NoMatter dev tx i r r.targetLba ∧
        (inJournal (changedTarget r off v) ∨ NoMatter dev tx i r (changedTarget r off v)) := by
  have hi : i < tx.length := (List.getElem?_eq_some_iff.mp hr).1
  obtain ⟨hin, -⟩ := record_inJournal h hi (Or.inl rfl)
  have hself : tx.set i r = tx := by
    obtain ⟨hi, rfl⟩ := List.getElem?_eq_some_iff.mp hr
    exact List.set_getElem_self hi
  -- both recoveries are lists of writes that differ in one address
  have hboth : (∀ x, ¬ inJournal x →
      copyRecords (dev.changeByte (descLba i) off v).blocks 0 (dev.accepted tx.length) x =
        copyRecords dev.blocks 0 (dev.accepted tx.length) x) ↔
      ∀ x, ¬ inJournal x →
        applyWrites (homeWrites (tx.take i) ++ (changedTarget r off v, r.payload) ::
          homeWrites ((tx.take (dev.accepted tx.length)).drop (i + 1))) dev.blocks x =
        applyWrites (homeWrites (tx.take i) ++ (r.targetLba, r.payload) ::
          homeWrites ((tx.take (dev.accepted tx.length)).drop (i + 1))) dev.blocks x := by
    refine forall₂_congr fun x hx => ?_
    rw [copyRecords_retarget h hr hlow hhigh (accepted_le dev _) hclear,
      h.logged.copyRecords (accepted_le dev _), applyWrites_changeByte _ hin hx,
      homeWrites_set hr hreach, ← homeWrites_set hr hreach r, hself]
  calc (∀ x, ¬ inJournal x →
        copyRecords (dev.changeByte (descLba i) off v).blocks 0 (dev.accepted tx.length) x =
          copyRecords dev.blocks 0 (dev.accepted tx.length) x)
      ↔ _ := hboth
    _ ↔ _ := applyWrites_retarget_iff (changedTarget_ne h hr hlow hhigh hv)
    _ ↔ _ := by
      have houtside : ¬ inJournal r.targetLba := h.txOk.outside r (List.mem_of_getElem? hr)
      rw [exists_mem_homeWrites_iff, exists_mem_homeWrites_iff, ← NoMatter, ← NoMatter,
        or_iff_not_imp_left]
      simp only [houtside, not_false_eq_true, true_implies]

/-- A block of the journal when the turn of record `j` comes, if record `i` was the only one that
could be copied there. -/
private theorem copyRecords_hit {j x : ℕ} (hij : i < j) (hj : j < tx.length)
    (hclear : ¬ HitsLater i j (changedTarget r off v)) (hx : inJournal x) :
    copyRecords (dev.changeByte (descLba i) off v).blocks 0 j x =
      if x = changedTarget r off v then r.payload
        else (dev.changeByte (descLba i) off v).blocks x := by
  have houtside : ∀ s ∈ tx, s.targetLba ≠ x := fun s hs =>
    (ne_of_outside (h.txOk.outside s hs) hx).symm
  have hothers : ∀ tx' : Tx, (∀ s ∈ tx', s ∈ tx) → ∀ w ∈ homeWrites tx', w.1 ≠ x := by
    intro tx' hsub w hw
    obtain ⟨s, hs, rfl⟩ := List.mem_map.mp hw
    exact houtside s (hsub s hs)
  rw [copyRecords_retarget h hr hlow hhigh hj.le hclear, homeWrites_set hr hij, applyWrites_append,
    ← List.singleton_append, applyWrites_append, applyWrites_singleton,
    applyWrites_of_ne (hothers _ fun s hs => List.mem_of_mem_take (List.mem_of_mem_drop hs))]
  by_cases heq : x = changedTarget r off v
  · rw [if_pos heq, heq, Function.update_self]
  · rw [if_neg heq, Function.update_of_ne heq,
      applyWrites_of_ne (hothers _ fun s hs => List.mem_of_mem_take hs)]

/-- The record whose block is overwritten passes its checks just if the payload fits. -/
private theorem recordOk_hit_iff {j : ℕ} {s : Jrec} (hij : i < j) (hs : tx[j]? = some s)
    (hhit : changedTarget r off v = descLba j ∨ changedTarget r off v = dataLba j) :
    RecordOk dev.totalBlocks (copyRecords (dev.changeByte (descLba i) off v).blocks 0 j) j ↔
      Fits dev r s j (changedTarget r off v) := by
  have hj : j < tx.length := (List.getElem?_eq_some_iff.mp hs).1
  have hclear : ¬ HitsLater i j (changedTarget r off v) := fun ⟨k, _, hk, hkhit⟩ =>
    hk.ne (hit_unique hkhit hhit)
  obtain ⟨hindesc, hindata⟩ := inJournal_record (hj.trans_le h.txOk.count)
  have hdesc := copyRecords_hit h hr hlow hhigh hij hj hclear hindesc
  have hdata := copyRecords_hit h hr hlow hhigh hij hj hclear hindata
  rw [changeByte_of_ne (record_ne (Or.inl rfl) hij.ne').1, h.committed.desc j s hs] at hdesc
  rw [changeByte_of_ne (record_ne (Or.inl rfl) hij.ne').2, h.committed.data j s hs] at hdata
  have hvalid : dev.validLba s.targetLba := h.txOk.valid s (List.mem_of_getElem? hs)
  have hsmall : s.targetLba % 2 ^ 32 = s.targetLba := Nat.mod_eq_of_lt (hvalid.2.trans (by decide))
  have hread : blockExists dev.totalBlocks (dataLba j) := h.readable j hj
  have hne : descLba j ≠ dataLba j := by
    simp only [dataLba]
    omega
  rcases hhit with hhit | hhit
  · rw [if_pos hhit.symm] at hdesc
    rw [if_neg (fun heq => hne (hhit.symm.trans heq.symm))] at hdata
    constructor
    · intro hok
      refine ⟨fun _ => ⟨?_, ?_, ?_⟩, fun hdata' => absurd (hhit.symm.trans hdata') hne⟩
      · rw [← hdesc, hok.magic]
      · rw [← hdesc]
        exact hok.target
      · rw [← hdesc, ← hdata, hok.checksum]
    · intro hfits
      obtain ⟨hmagic, htarget, hsum⟩ := hfits.desc hhit
      exact ⟨hread, by rw [hdesc, hmagic], by rw [hdesc]; exact htarget, by rw [hdesc, hdata, hsum]⟩
  · rw [if_neg (fun heq => hne (heq.trans hhit))] at hdesc
    rw [if_pos hhit.symm] at hdata
    constructor
    · intro hok
      refine ⟨fun hdesc' => absurd (hdesc'.symm.trans hhit) hne, fun _ => ?_⟩
      have hsum := hok.checksum
      rw [hdesc, hdata, descriptor_checksum] at hsum
      exact UInt32.toNat_inj.mp hsum
    · intro hfits
      refine ⟨hread, by rw [hdesc, descriptor_magic], ?_, ?_⟩
      · rw [hdesc, descriptor_target, hsmall]
        exact hvalid
      · rw [hdesc, hdata, descriptor_checksum, hfits.data hhit]

end Target

/-- With the changed target the payload lands in a record that is replayed later, and does not pass
its checks there. -/
def Refused (dev : Dev) (tx : Tx) (i : ℕ) (r : Jrec) (t : ℕ) : Prop :=
  ∃ j s, i < j ∧ j ≤ dev.accepted tx.length ∧ tx[j]? = some s ∧ (t = descLba j ∨ t = dataLba j) ∧
    ¬ Fits dev r s j t

/-- With the changed target the payload lands in a record that is replayed later, and passes its
checks there: it is a descriptor for the payload of that record, or has the same checksum. -/
def Forged (dev : Dev) (tx : Tx) (i : ℕ) (r : Jrec) (t : ℕ) : Prop :=
  ∃ j s, i < j ∧ j < dev.accepted tx.length ∧ tx[j]? = some s ∧ (t = descLba j ∨ t = dataLba j) ∧
    Fits dev r s j t

/-- A changed target does no harm: the record is never reached, the target is not a block of the
device, the payload is refused in the record that it overwrites, or no record is overwritten that is
replayed and the record matters neither at the old nor at the new target. -/
def Harmless (dev : Dev) (tx : Tx) (i : ℕ) (r : Jrec) (t : ℕ) : Prop :=
  dev.accepted tx.length ≤ i ∨ ¬ dev.validLba t ∨ Refused dev tx i r t ∨
    (¬ HitsLater i (dev.accepted tx.length) t ∧ NoMatter dev tx i r r.targetLba ∧
      (inJournal t ∨ NoMatter dev tx i r t))

section Target

variable {i : ℕ} {r : Jrec} (h : Pending dev tx) (hr : tx[i]? = some r) (hlow : 8 ≤ off)
  (hhigh : off < 12)

include h hr hlow hhigh

/-- A payload that is refused is noticed. -/
private theorem detected_of_refused (hvalid : dev.validLba (changedTarget r off v))
    (hrefused : Refused dev tx i r (changedTarget r off v)) :
    Detected dev (dev.changeByte (descLba i) off v) := by
  obtain ⟨j, s, hij, hle, hs, hhit, hfits⟩ := hrefused
  have hi : i < tx.length := (List.getElem?_eq_some_iff.mp hr).1
  have hj : j < tx.length := (List.getElem?_eq_some_iff.mp hs).1
  have hclear : ¬ HitsLater i j (changedTarget r off v) := fun ⟨k, _, hk, hkhit⟩ =>
    hk.ne (hit_unique hkhit hhit)
  refine (h.detected_iff (record_inJournal h hi (Or.inl rfl)).2).mpr (Or.inl ⟨j, hj, hle, ?_⟩)
  rw [corruptAfter_iff]
  simp only [Nat.zero_add]
  refine ⟨fun k hk => recordOk_retarget h hr hlow hhigh hvalid hclear hk (hk.trans hj), ?_⟩
  exact (recordOk_or_corrupt (h.readable j hj)).resolve_left fun hok =>
    hfits ((recordOk_hit_iff h hr hlow hhigh hij hs hhit).mp hok)

/-- As long as the payload lands in no record that is replayed later and accepts it. -/
theorem Pending.detected_target_iff (hv : v ≠ (descriptor r).byte off)
    (hforged : ¬ Forged dev tx i r (changedTarget r off v)) :
    Detected dev (dev.changeByte (descLba i) off v) ↔
      Harmless dev tx i r (changedTarget r off v) := by
  have hi : i < tx.length := (List.getElem?_eq_some_iff.mp hr).1
  obtain ⟨hin, hstart⟩ := record_inJournal h hi (Or.inl rfl)
  -- the record is never reached
  by_cases hreach : dev.accepted tx.length ≤ i
  · refine iff_of_true ((h.detected_iff hstart).mpr (Or.inr fun x hx => ?_)) (Or.inl hreach)
    exact copyRecords_before h hi (Or.inl rfl) hreach hx
  -- the record itself is refused
  by_cases hvalid : dev.validLba (changedTarget r off v)
  case neg =>
    refine iff_of_true (h.detected_of_recordCorrupt hi (Or.inl rfl) ?_) (Or.inr (Or.inl hvalid))
    refine ⟨blockExists_descLba (h.readable i hi), Or.inr (Or.inl ?_)⟩
    rw [desc_after h hr]
    exact hvalid
  -- a later record is refused, which the payload has overwritten
  by_cases hrefused : Refused dev tx i r (changedTarget r off v)
  · exact iff_of_true (detected_of_refused h hr hlow hhigh hvalid hrefused)
      (Or.inr (Or.inr (Or.inl hrefused)))
  -- no record that is replayed is overwritten, and the one behind them passes its checks
  have hclear : ¬ HitsLater i (dev.accepted tx.length) (changedTarget r off v) := by
    rintro ⟨j, hij, hj, hhit⟩
    have hlt : j < tx.length := hj.trans_le (accepted_le dev _)
    have hs : tx[j]? = some tx[j] := List.getElem?_eq_getElem hlt
    by_cases hfits : Fits dev r tx[j] j (changedTarget r off v)
    · exact hforged ⟨j, _, hij, hj, hs, hhit, hfits⟩
    · exact hrefused ⟨j, _, hij, hj.le, hs, hhit, hfits⟩
  have hgood : ¬ ∃ j < tx.length, j ≤ dev.accepted tx.length ∧
      CorruptAfter dev.totalBlocks (dev.changeByte (descLba i) off v).blocks 0 j := by
    rintro ⟨j, hj, hle, hcorrupt⟩
    have hbad := ((corruptAfter_iff _ _ _).mp hcorrupt).2
    rw [Nat.zero_add] at hbad
    by_cases hlast : HitsLater i (j + 1) (changedTarget r off v)
    · obtain ⟨k, hik, hk, hhit⟩ := hlast
      obtain rfl : k = j := by
        by_contra hne
        exact hclear ⟨k, hik, by omega, hhit⟩
      have hs : tx[k]? = some tx[k] := List.getElem?_eq_getElem hj
      have hfits : ¬ Fits dev r tx[k] k (changedTarget r off v) := fun hfits =>
        ((recordOk_hit_iff h hr hlow hhigh hik hs hhit).mpr hfits).not_corrupt hbad
      exact hrefused ⟨k, _, hik, hle, hs, hhit, hfits⟩
    · exact (recordOk_retarget h hr hlow hhigh hvalid hlast (Nat.lt_succ_self j) hj).not_corrupt
        hbad
  rw [h.detected_iff hstart, or_iff_right hgood,
    copies_retarget_iff h hr hlow hhigh hv (Nat.not_le.mp hreach) hclear, Harmless]
  simp only [hreach, hvalid, hrefused, hclear, not_true_eq_false, not_false_eq_true, false_or,
    true_and]

omit hr hlow hhigh in
/-- A harmless change is no forgery. -/
private theorem not_forged_of_harmless {t : ℕ} (hharmless : Harmless dev tx i r t) :
    ¬ Forged dev tx i r t := by
  rintro ⟨j, s, hij, hj, hs, hhit, hfits⟩
  rcases hharmless with hle | hinvalid | ⟨k, u, -, -, hu, hkhit, hnot⟩ | ⟨hclear, -⟩
  · omega
  · have hread := h.readable j (List.getElem?_eq_some_iff.mp hs).1
    rcases hhit with rfl | rfl
    · exact hinvalid (blockExists_descLba hread)
    · exact hinvalid hread
  · obtain rfl := hit_unique hkhit hhit
    obtain rfl : s = u := Option.some.inj (hs.symm.trans hu)
    exact hnot hfits
  · exact hclear ⟨j, hij, hj, hhit⟩

end Target

/-- The byte `off` of block `lba` belongs to the target of record `i`, which is `r`. -/
structure TargetByte (tx : Tx) (lba off i : ℕ) (r : Jrec) : Prop where
  record : tx[i]? = some r
  block : lba = descLba i
  low : 8 ≤ off
  high : off < 12

/-- There is one record at most whose target the byte belongs to. -/
theorem TargetByte.unique {i j : ℕ} {r s : Jrec} (hr : TargetByte tx lba off i r)
    (hs : TargetByte tx lba off j s) : i = j ∧ r = s := by
  have hblock := hr.block.symm.trans hs.block
  obtain rfl : i = j := by
    simp only [descLba] at hblock
    omega
  exact ⟨rfl, Option.some.inj (hr.record.symm.trans hs.record)⟩

/-- Bytes other than those of a target. -/
private theorem detected_of_not_target (h : Pending dev tx)
    (hlba : lba = journalStart ∨ ∃ i < tx.length, lba = descLba i ∨ lba = dataLba i)
    (hoff : off < blockSize) (hv : v ≠ (dev.blocks lba).byte off)
    (htarget : ¬ ∃ i r, TargetByte tx lba off i r) : Detected dev (dev.changeByte lba off v) := by
  rcases hlba with rfl | ⟨i, hi, rfl | rfl⟩
  · exact h.detected_header hoff hv
  · have hr : tx[i]? = some tx[i] := List.getElem?_eq_getElem hi
    rw [h.committed.desc i _ hr] at hv
    by_cases hpadding : 16 ≤ off
    · exact h.detected_padding hr hpadding
    · refine h.detected_descriptor hr ?_ hv
      by_contra hnot
      exact htarget ⟨i, _, hr, rfl, by omega, by omega⟩
  · have hr : tx[i]? = some tx[i] := List.getElem?_eq_getElem hi
    rw [h.committed.data i _ hr] at hv
    exact h.detected_payload hr hoff hv

/-- **When corruption of the journal is detected.**  A transaction with valid targets outside the
journal was committed and stopped after its commit record, and one byte of the header, of a
descriptor or of a payload is changed.  Recovery reports corruption, or leaves outside the journal
what it would have left there, if the byte is not one of a target, or the changed target does no
harm; and only then, unless the payload lands in a later record and passes for a part of it. -/
theorem corruption_detected (d dev : Dev) (tx : Tx) (seq lba off : ℕ) (v : UInt8)
    (hvalid : ∀ r ∈ tx, d.validLba r.targetLba) (houtside : ∀ r ∈ tx, ¬ inJournal r.targetLba)
    (hcommit : journalCommit tx seq true d = (.ok (), dev))
    (hlba : lba = journalStart ∨ ∃ i < tx.length, lba = descLba i ∨ lba = dataLba i)
    (hoff : off < blockSize) (hv : v ≠ (dev.blocks lba).byte off) :
    ((∀ i r, TargetByte tx lba off i r → Harmless dev tx i r (changedTarget r off v)) →
        Detected dev (dev.changeByte lba off v)) ∧
      ((∀ i r, TargetByte tx lba off i r → ¬ Forged dev tx i r (changedTarget r off v)) →
        Detected dev (dev.changeByte lba off v) →
          ∀ i r, TargetByte tx lba off i r → Harmless dev tx i r (changedTarget r off v)) := by
  have h := pending_of_commit hvalid houtside hcommit
  by_cases htarget : ∃ i r, TargetByte tx lba off i r
  case neg =>
    exact ⟨fun _ => detected_of_not_target h hlba hoff hv htarget,
      fun _ _ i r hr => absurd ⟨i, r, hr⟩ htarget⟩
  obtain ⟨i, r, hr⟩ := htarget
  obtain rfl := hr.block
  rw [h.committed.desc i r hr.record] at hv
  have hiff := h.detected_target_iff hr.record hr.low hr.high hv
  constructor
  · intro hharmless
    have hthis := hharmless i r hr
    exact (hiff (not_forged_of_harmless h hthis)).mpr hthis
  · intro hforged hdetected j s hs
    obtain ⟨rfl, rfl⟩ := hr.unique hs
    exact (hiff (hforged i r hr)).mp hdetected

/-- A journal with one record for block 30, committed and not yet replayed. -/
def oneRecord : Dev := devInit.storeAll (commitWrites [strayRecord] 2 true)

private theorem strayRecord_target {r : Jrec} (hr : r ∈ [strayRecord]) :
    devInit.validLba r.targetLba ∧ ¬ inJournal r.targetLba := by
  obtain rfl := List.mem_singleton.mp hr
  exact ⟨(by decide : 30 < 128 ∧ 30 < 128), (by decide : ¬ (1 ≤ 30 ∧ 30 < 1 + 17))⟩

private theorem commit_oneRecord :
    journalCommit [strayRecord] 2 true devInit = (.ok (), oneRecord) := by
  have hok : TxOk devInit [strayRecord] :=
    ⟨by decide, fun r hr => (strayRecord_target hr).1, fun r hr => (strayRecord_target hr).2⟩
  rw [journalCommit_apply (by decide) hok, accepted_of_neg (by decide), if_pos rfl,
    List.take_length]
  rfl

theorem pending_oneRecord : Pending oneRecord [strayRecord] :=
  pending_of_commit (fun _ hr => (strayRecord_target hr).1) (fun _ hr => (strayRecord_target hr).2)
    commit_oneRecord

/-- A changed byte of the payload is noticed. -/
theorem corruption_detected_payload :
    Detected oneRecord (oneRecord.changeByte (dataLba 0) 0 9) := by
  have hdata : oneRecord.blocks (dataLba 0) = zero.setU32 0 7 :=
    pending_oneRecord.committed.data 0 strayRecord rfl
  refine (corruption_detected devInit oneRecord [strayRecord] 2 (dataLba 0) 0 9
    (fun _ hr => (strayRecord_target hr).1) (fun _ hr => (strayRecord_target hr).2) commit_oneRecord
    (Or.inr ⟨0, by decide, Or.inr rfl⟩) (by decide) ?_).1 ?_
  · rw [hdata]
    decide
  · intro i r hr
    exact absurd hr.low (by decide)

/-- A changed byte of the target is not: the payload goes to block 31. -/
theorem corruption_undetected_target :
    journalCommit [strayRecord] 2 true devInit = (.ok (), oneRecord) ∧
      ¬ Detected oneRecord (oneRecord.changeByte (descLba 0) 8 31) := by
  refine ⟨commit_oneRecord, fun hdetected => ?_⟩
  have hv : (31 : UInt8) ≠ (descriptor strayRecord).byte 8 := by decide
  have htarget : changedTarget strayRecord 8 31 = 31 := by decide
  have hall : oneRecord.accepted [strayRecord].length = 1 := rfl
  have hblock : oneRecord.blocks 30 = zero := rfl
  have hforged : ¬ Forged oneRecord [strayRecord] 0 strayRecord
      (changedTarget strayRecord 8 31) := by
    rintro ⟨j, s, hij, hj, -⟩
    rw [hall] at hj
    omega
  have hharmless :=
    (pending_oneRecord.detected_target_iff rfl (by decide) (by decide) hv hforged).mp
    hdetected
  rw [Harmless, htarget, hall] at hharmless
  rcases hharmless with hreach | hvalid | ⟨j, s, hij, -, hs, -⟩ | ⟨-, hold, -⟩
  · exact absurd hreach (by decide)
  · exact hvalid (by decide : 31 < 128 ∧ 31 < 128)
  · have hlt := (List.getElem?_eq_some_iff.mp hs).1
    simp only [List.length_singleton] at hlt
    omega
  · rcases hold with ⟨s, hs, -⟩ | hsame
    · rw [hall] at hs
      exact absurd hs List.not_mem_nil
    · have hbyte : oneRecord.blocks 30 = zero.setU32 0 7 := hsame
      rw [hblock] at hbyte
      exact absurd (congrArg (fun c : Block => c.byte 0) hbyte) (by decide)

end Mcsos.M16
