import Mcsos.M16.Writes

/-!
# Recovery of a committed journal

`Committed b tx` says that the blocks `b` hold a committed journal with the records of `tx`.  As
long as the targets lie outside the journal, replaying a record does not touch the journal, so
recovery is the list of the home writes of `tx` followed by the write that clears the header
(`journalRecover_of_committed`).  On a device whose header is zero it does nothing.
-/

namespace Mcsos.M16

open Bytes

/-- The blocks `M16_JOURNAL_START, …` of the journal. -/
def inJournal (lba : ℕ) : Prop := journalStart ≤ lba ∧ lba < journalStart + journalBlocks

instance (lba : ℕ) : Decidable (inJournal lba) := inferInstanceAs (Decidable (_ ∧ _))

/-- What `m16_journal_commit` relies on: at most eight records, with valid targets outside the
journal. -/
structure TxOk (dev : Dev) (tx : Tx) : Prop where
  count : tx.length ≤ journalMaxRecords
  valid : ∀ r ∈ tx, dev.validLba r.targetLba
  outside : ∀ r ∈ tx, ¬ inJournal r.targetLba

/-- The journal holds the records of `tx`, committed. -/
structure Committed (b : ℕ → Block) (tx : Tx) : Prop where
  header : ∃ seq, b journalStart = commitHeader seq tx.length
  desc : ∀ i r, tx[i]? = some r → b (descLba i) = descriptor r
  data : ∀ i r, tx[i]? = some r → b (dataLba i) = r.payload

/-! ## Fields of the journal blocks -/

@[simp] theorem descriptor_magic (r : Jrec) : (descriptor r).u64 0 = jmagic := by
  simp (disch := omega) only [descriptor, u64, setU32, setU64, word_splice_of_disjoint,
    word_splice_wordBytes]
  rfl

@[simp] theorem descriptor_target (r : Jrec) : (descriptor r).u32 8 = r.targetLba % 2 ^ 32 := by
  simp (disch := omega) only [descriptor, u32, setU32, setU64, word_splice_of_disjoint,
    word_splice_wordBytes]
  rfl

@[simp] theorem descriptor_checksum (r : Jrec) :
    (descriptor r).u32 12 = (checksum r.payload.byte blockSize).toNat := by
  have hlt : (checksum r.payload.byte blockSize).toNat < 2 ^ 32 := UInt32.toNat_lt _
  rw [descriptor, u32_setU32 _ _ (by omega), Nat.mod_eq_of_lt hlt]

theorem commitHeader_not_empty (seq count : ℕ) : ¬ headerEmpty (commitHeader seq count) := by
  rintro ⟨hmagic, _⟩
  simp (disch := omega) only [commitHeader, commitHeaderBody, u64, setU32, setU64,
    word_splice_of_disjoint, word_splice_wordBytes] at hmagic
  exact absurd hmagic (by decide)

@[simp] theorem commitHeader_count (seq : ℕ) {count : ℕ} (h : count ≤ journalMaxRecords) :
    (commitHeader seq count).u32 20 = count := by
  have hlt : count < 256 ^ 4 := Nat.lt_of_le_of_lt h (by decide)
  simp (disch := omega) only [commitHeader, commitHeaderBody, u32, setU32,
    word_splice_of_disjoint, word_splice_wordBytes, Nat.mod_eq_of_lt hlt]

/-- The header checksum does not see the checksum field, so the committed header passes its own
test. -/
theorem commitHeader_accepted (seq : ℕ) {count : ℕ} (h : count ≤ journalMaxRecords) :
    headerAccepted (commitHeader seq count) := by
  -- the checksum does not cover its own field
  have hchecksum : headerChecksum (commitHeader seq count) =
      headerChecksum (commitHeaderBody seq count) := by
    unfold headerChecksum commitHeader
    rw [setU32, setU32, splice_splice, ← setU32]
  have hmagic : (commitHeader seq count).u64 0 = jmagic := by
    simp (disch := omega) only [commitHeader, commitHeaderBody, u64, setU32, setU64,
      word_splice_of_disjoint, word_splice_wordBytes]
    rfl
  have hversion : (commitHeader seq count).u32 8 = version := by
    simp (disch := omega) only [commitHeader, commitHeaderBody, u32, setU32, setU64,
      word_splice_of_disjoint, word_splice_wordBytes]
    rfl
  have hstate : (commitHeader seq count).u32 12 = jCommitted := by
    simp (disch := omega) only [commitHeader, commitHeaderBody, u32, setU32, setU64,
      word_splice_of_disjoint, word_splice_wordBytes]
    rfl
  have hsum : (commitHeader seq count).u32 24 =
      (headerChecksum (commitHeaderBody seq count)).toNat := by
    rw [commitHeader, u32_setU32 _ _ (by omega), Nat.mod_eq_of_lt (UInt32.toNat_lt _)]
  refine ⟨?_, ?_⟩
  · simp only [hmagic, hversion, hstate, commitHeader_count seq h, ne_eq, not_true_eq_false,
      false_or, Nat.not_lt]
    exact h
  · rw [hchecksum, hsum]
    exact not_not.mpr rfl

/-! ## The two cases of recovery -/

/-- On an empty journal recovery does nothing. -/
theorem journalRecover_of_empty {dev : Dev} (hvalid : dev.validLba journalStart)
    (hempty : headerEmpty (dev.blocks journalStart)) : journalRecover dev = (.ok (), dev) := by
  rw [journalRecover, Act.bind_of_ok (readBlock_of_valid hvalid), if_pos hempty]
  rfl

theorem headerEmpty_zero : headerEmpty (zero : Block) := ⟨u64_zero 0, u32_zero 12⟩

/-- After the header checks recovery replays the records and clears the header. -/
theorem journalRecover_of_accepted {dev : Dev} (hvalid : dev.validLba journalStart)
    (hempty : ¬ headerEmpty (dev.blocks journalStart))
    (haccepted : headerAccepted (dev.blocks journalStart)) :
    journalRecover dev =
      (do recoverRecords ((dev.blocks journalStart).u32 20) 0; journalClear : DevM Unit) dev := by
  rw [journalRecover, Act.bind_of_ok (readBlock_of_valid hvalid), if_neg hempty,
    Act.failIf_bind_of_not haccepted.1, Act.failIf_bind_of_not haccepted.2]

/-- A header that does not pass its checks is reported before anything is written. -/
theorem journalRecover_of_rejected {dev : Dev} (hvalid : dev.validLba journalStart)
    (hempty : ¬ headerEmpty (dev.blocks journalStart))
    (hrejected : ¬ headerAccepted (dev.blocks journalStart)) :
    journalRecover dev = (.error .corrupt, dev) := by
  rw [journalRecover, Act.bind_of_ok (readBlock_of_valid hvalid), if_neg hempty]
  rcases not_and_or.mp hrejected with hfields | hchecksum
  · rw [Act.failIf_bind_of_pos (not_not.mp hfields)]
  · by_cases hfields : (dev.blocks journalStart).u64 0 ≠ jmagic ∨
        (dev.blocks journalStart).u32 8 ≠ version ∨
        (dev.blocks journalStart).u32 12 ≠ jCommitted ∨
        journalMaxRecords < (dev.blocks journalStart).u32 20
    · rw [Act.failIf_bind_of_pos hfields]
    · rw [Act.failIf_bind_of_not hfields, Act.failIf_bind_of_pos (not_not.mp hchecksum)]

/-- Replaying a record that is in the journal as it was committed. -/
theorem recoverRecord_of_committed {dev : Dev} {i : ℕ} {r : Jrec}
    (hjournal : dev.validLba (dataLba i)) (htarget : dev.validLba r.targetLba)
    (hdesc : dev.blocks (descLba i) = descriptor r) (hdata : dev.blocks (dataLba i) = r.payload) :
    recoverRecord i dev = writeBlock r.targetLba r.payload dev := by
  have hdescValid : dev.validLba (descLba i) :=
    ⟨(Nat.lt_succ_self _).trans hjournal.1, (Nat.lt_succ_self _).trans hjournal.2⟩
  have hsmall : r.targetLba % 2 ^ 32 = r.targetLba :=
    Nat.mod_eq_of_lt (htarget.2.trans (by decide))
  rw [recoverRecord, Act.bind_of_ok (readBlock_of_valid hdescValid), Act.get_bind_apply, hdesc,
    descriptor_magic, descriptor_target, hsmall,
    Act.failIf_bind_of_not (not_or.mpr ⟨not_not.mpr rfl, not_not.mpr htarget⟩),
    Act.bind_of_ok (readBlock_of_valid hjournal), hdata, descriptor_checksum,
    Act.failIf_bind_of_not (not_not.mpr rfl)]

theorem dataLba_lt {i : ℕ} (h : i < journalMaxRecords) :
    dataLba i < journalStart + journalBlocks := by
  simp only [dataLba, descLba, journalStart, journalBlocks, journalMaxRecords] at *
  omega

/-- The blocks of record `i` are inside the journal. -/
theorem inJournal_record {i : ℕ} (hi : i < journalMaxRecords) :
    inJournal (descLba i) ∧ inJournal (dataLba i) := by
  have hlast := dataLba_lt hi
  simp only [inJournal, dataLba, descLba, journalStart, journalBlocks] at hlast ⊢
  omega

/-- A write outside the journal keeps a committed journal. -/
theorem Committed.update {b : ℕ → Block} {tx : Tx} (h : Committed b tx)
    (hcount : tx.length ≤ journalMaxRecords) {lba : ℕ} (hlba : ¬ inJournal lba) (data : Block) :
    Committed (Function.update b lba data) tx := by
  have hin : ∀ {i r}, tx[i]? = some r → inJournal (descLba i) ∧ inJournal (dataLba i) :=
    fun hr => inJournal_record ((List.getElem?_eq_some_iff.mp hr).1.trans_le hcount)
  have hne : ∀ {x}, inJournal x → x ≠ lba := fun hx heq => hlba (heq ▸ hx)
  refine ⟨?_, ?_, ?_⟩
  · obtain ⟨seq, hseq⟩ := h.header
    exact ⟨seq, by rw [Function.update_of_ne (hne (by decide : 1 ≤ 1 ∧ 1 < 1 + 17)), hseq]⟩
  · intro i r hr
    rw [Function.update_of_ne (hne (hin hr).1), h.desc i r hr]
  · intro i r hr
    rw [Function.update_of_ne (hne (hin hr).2), h.data i r hr]

/-- The replay loop from record `i` on is the home writes of the records from there. -/
private theorem recoverRecords_of_committed {tx : Tx} {dev : Dev} (hjournal : 18 ≤ dev.totalBlocks)
    (hok : TxOk dev tx) (hcommitted : Committed dev.blocks tx) :
    ∀ remaining i, i + remaining = tx.length →
      recoverRecords remaining i dev = writeAll (homeWrites (tx.drop i)) dev := by
  intro remaining
  induction remaining generalizing dev with
  | zero =>
      intro i hi
      rw [List.drop_eq_nil_of_le (by omega)]
      rfl
  | succ remaining ih =>
      intro i hi
      have hlt : i < tx.length := by omega
      have hget : tx[i]? = some tx[i] := List.getElem?_eq_getElem hlt
      have htarget : dev.validLba tx[i].targetLba := hok.valid _ (List.getElem_mem hlt)
      have hdata : dev.validLba (dataLba i) := by
        have := dataLba_lt (hlt.trans_le hok.count)
        simp only [Dev.validLba, journalStart, journalBlocks, maxBlocks] at this ⊢
        omega
      have hrecord := recoverRecord_of_committed hdata htarget (hcommitted.desc i _ hget)
        (hcommitted.data i _ hget)
      rw [List.drop_eq_getElem_cons hlt, recoverRecords, Act.bind_apply, hrecord]
      change _ = (writeBlock tx[i].targetLba tx[i].payload >>=
        fun _ => writeAll (homeWrites (tx.drop (i + 1)))) dev
      rw [Act.bind_apply]
      by_cases hfail : dev.failAfter = 0
      · rw [writeBlock_of_exhausted htarget hfail]
      · rw [writeBlock_of_valid htarget hfail]
        have hrest : TxOk (dev.store tx[i].targetLba tx[i].payload) tx :=
          ⟨hok.count, hok.valid, hok.outside⟩
        have hkept : 18 ≤ (dev.store tx[i].targetLba tx[i].payload).totalBlocks := hjournal
        -- the target is outside the journal, so the records still to come are as they were
        exact ih hkept hrest
          (hcommitted.update hok.count (hok.outside _ (List.getElem_mem hlt)) _) (i + 1) (by omega)

/-- Recovery of a committed journal is the home writes and the clearing of the header. -/
theorem journalRecover_of_committed {tx : Tx} {dev : Dev} (hjournal : 18 ≤ dev.totalBlocks)
    (hok : TxOk dev tx) (hcommitted : Committed dev.blocks tx) :
    journalRecover dev = writeAll (homeWrites tx ++ [clearWrite]) dev := by
  have hvalid : dev.validLba journalStart := by
    simp only [Dev.validLba, journalStart, maxBlocks]
    omega
  obtain ⟨seq, hseq⟩ := hcommitted.header
  have hreplay := recoverRecords_of_committed hjournal hok hcommitted tx.length 0 (Nat.zero_add _)
  rw [journalRecover_of_accepted hvalid (hseq ▸ commitHeader_not_empty seq _)
      (hseq ▸ commitHeader_accepted seq hok.count), hseq, commitHeader_count seq hok.count,
    writeAll_append, Act.bind_apply, Act.bind_apply, hreplay, List.drop_zero]
  cases writeAll (homeWrites tx) dev with
  | mk r dev' =>
      cases r with
      | ok u =>
          cases u
          exact (writeAll_singleton clearWrite ▸ rfl)
      | error e => rfl

end Mcsos.M16
