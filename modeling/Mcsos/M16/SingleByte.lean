import Mcsos.M16.Corruption

/-!
# A single wrong byte

The checksums of the journal see every change of a single byte, in byte strings of any length.  What
recovery makes of it depends on where the byte is:

* In the header, the test of the header fails: outside the checksum field it is the checksum that
  changes, and inside it is what the checksum is compared with.  Only a header that then says that
  the journal is empty is not tested.
* In a payload block, the comparison with the checksum in the descriptor fails when the turn of the
  record comes.  Recovery reads the journal while it writes the records home, so a record may be
  aimed at the payload block of a later one; the changed byte is then overwritten before it is read.

For the payload blocks the recoveries of the device before and after the change are compared: up to
the record they take the same steps, on devices that differ in the changed byte only
(`recoverRecords_changeByte`).
-/

namespace Mcsos.M16

open Bytes

variable {dev s : Dev} {b : ℕ → Block} {lba off i k : ℕ} {v : UInt8}

/-! ## The header -/

/-- Recovery reports the header, and has written nothing. -/
theorem recover_of_headerByte (hstart : dev.validLba journalStart)
    (hintact : HeaderIntact (dev.blocks journalStart)) (hoff : off < blockSize)
    (hv : v ≠ (dev.blocks journalStart).byte off)
    (hempty : ¬ headerEmpty ((dev.blocks journalStart).setByte off v)) :
    journalRecover (dev.changeByte journalStart off v) =
      (.error .corrupt, dev.changeByte journalStart off v) := by
  have hstart' : (dev.changeByte journalStart off v).validLba journalStart := hstart
  refine journalRecover_of_rejected hstart' (changeByte_self ▸ hempty) fun haccepted => ?_
  rw [changeByte_self] at haccepted
  exact not_headerIntact_setByte hintact hoff hv (not_not.mp haccepted.2)

/-! ## One record -/

/-- The payload of record `i` passes the comparison of `m16_journal_recover`. -/
def PayloadIntact (b : ℕ → Block) (i : ℕ) : Prop :=
  (checksum (b (dataLba i)).byte blockSize).toNat = (b (descLba i)).u32 12

theorem not_payloadIntact_changeByte (hintact : PayloadIntact dev.blocks i) (hoff : off < blockSize)
    (hv : v ≠ (dev.blocks (dataLba i)).byte off) :
    ¬ PayloadIntact (dev.changeByte (dataLba i) off v).blocks i := by
  intro hintact'
  rw [PayloadIntact, changeByte_self, changeByte_of_ne (descLba_ne_dataLba i),
    ← hintact] at hintact'
  exact checksum_setByte_ne (dev.blocks (dataLba i)) hoff hv (UInt32.toNat_inj.mp hintact')

/-- Recovery reports the record, and writes nothing for it. -/
theorem recoverRecord_of_payloadByte (hread : dev.validLba (dataLba i))
    (hintact : PayloadIntact dev.blocks i) (hoff : off < blockSize)
    (hv : v ≠ (dev.blocks (dataLba i)).byte off) :
    recoverRecord i (dev.changeByte (dataLba i) off v) =
      (.error .corrupt, dev.changeByte (dataLba i) off v) := by
  have hdesc := blockExists_descLba hread
  exact recoverRecord_of_corrupt
    ⟨hdesc, Or.inr (Or.inr ⟨hread, not_payloadIntact_changeByte hintact hoff hv⟩)⟩

/-- A write to another block does not touch the changed byte. -/
theorem store_changeByte {t : ℕ} (c : Block) (hne : t ≠ lba) :
    (dev.changeByte lba off v).store t c = (dev.store t c).changeByte lba off v := by
  have hblock : (dev.store t c).blocks lba = dev.blocks lba :=
    Function.update_of_ne (Ne.symm hne) _ _
  have hcomm := Function.update_comm hne c ((dev.blocks lba).setByte off v) dev.blocks
  unfold Dev.changeByte
  rw [hblock]
  exact congrArg (fun blocks : ℕ → Block => { dev.store t c with blocks := blocks }) hcomm.symm

/-- A record that neither reads nor writes the block is replayed as before. -/
theorem recoverRecord_changeByte (hrun : recoverRecord i dev = (.ok (), s))
    (hdesc : descLba i ≠ lba) (hdata : dataLba i ≠ lba)
    (htarget : (dev.blocks (descLba i)).u32 8 ≠ lba) :
    recoverRecord i (dev.changeByte lba off v) = (.ok (), s.changeByte lba off v) := by
  obtain ⟨hok, hfail, rfl⟩ := recoverRecord_eq_ok hrun
  have hdesc' : (dev.changeByte lba off v).blocks (descLba i) = dev.blocks (descLba i) :=
    changeByte_of_ne hdesc
  have hdata' : (dev.changeByte lba off v).blocks (dataLba i) = dev.blocks (dataLba i) :=
    changeByte_of_ne hdata
  have hok' : RecordOk dev.totalBlocks (dev.changeByte lba off v).blocks i :=
    ⟨hok.readable, hdesc' ▸ hok.magic, hdesc' ▸ hok.target, by rw [hdesc', hdata', hok.checksum]⟩
  have hvalid : (dev.changeByte lba off v).validLba ((dev.blocks (descLba i)).u32 8) := hok.target
  rw [recoverRecord_of_good hok', hdesc', hdata', writeBlock_of_valid hvalid hfail,
    store_changeByte _ htarget]

/-! ## The loop -/

theorem recoverRecords_add (k m i : ℕ) :
    recoverRecords (k + m) i = (do recoverRecords k i; recoverRecords m (i + k) : DevM Unit) := by
  induction k generalizing i with
  | zero => rw [Nat.zero_add]; rfl
  | succ k ih =>
      have hnext : i + 1 + k = i + (k + 1) := by omega
      rw [Nat.succ_add_eq_add_succ, Nat.add_succ, recoverRecords, recoverRecords, ih, hnext]
      exact (Act.bind_assoc ..).symm

/-- The records in front of record `i + k` are replayed as before, unless one of them is aimed at
the block. -/
theorem recoverRecords_changeByte (hrun : recoverRecords k i dev = (.ok (), s))
    (hdesc : ∀ j < k, descLba (i + j) ≠ lba) (hdata : ∀ j < k, dataLba (i + j) ≠ lba)
    (htarget : ∀ j < k, (copyRecords dev.blocks i j (descLba (i + j))).u32 8 ≠ lba) :
    recoverRecords k i (dev.changeByte lba off v) = (.ok (), s.changeByte lba off v) := by
  induction k generalizing dev i with
  | zero =>
      obtain ⟨-, rfl⟩ := Prod.mk.inj hrun
      rfl
  | succ k ih =>
      rw [recoverRecords] at hrun
      obtain ⟨_, t, hfirst, hrest⟩ := Act.bind_eq_ok hrun
      obtain ⟨-, -, rfl⟩ := recoverRecord_eq_ok hfirst
      have hshift : ∀ j, i + 1 + j = i + (j + 1) := fun j => by omega
      rw [recoverRecords, Act.bind_of_ok (recoverRecord_changeByte hfirst (hdesc 0 (Nat.succ_pos k))
        (hdata 0 (Nat.succ_pos k)) (htarget 0 (Nat.succ_pos k)))]
      refine ih hrest (fun j hj => ?_) (fun j hj => ?_) fun j hj => ?_
      · rw [hshift]
        exact hdesc (j + 1) (Nat.succ_lt_succ hj)
      · rw [hshift]
        exact hdata (j + 1) (Nat.succ_lt_succ hj)
      · rw [hshift]
        exact htarget (j + 1) (Nat.succ_lt_succ hj)

/-- If no earlier record is aimed at the payload block of record `i`, recovery gets to it with the
block as it was, and in the same way after a change of the block. -/
theorem recoverRecords_upTo (hrun : recoverRecords i 0 dev = (.ok (), s))
    (hkept : ∀ j < i, targetAt dev.blocks j ≠ dataLba i) (off : ℕ) (v : UInt8) :
    s.blocks (dataLba i) = dev.blocks (dataLba i) ∧
      recoverRecords i 0 (dev.changeByte (dataLba i) off v) =
        (.ok (), s.changeByte (dataLba i) off v) := by
  constructor
  · rw [(recoverRecords_eq_ok hrun).2]
    rcases copyRecords_cases dev.blocks i (dataLba i) with ⟨-, heq⟩ | ⟨j, hj, htarget, -⟩
    · exact heq
    · exact absurd htarget (hkept j hj)
  · refine recoverRecords_changeByte hrun (fun j hj => ?_) (fun j hj => ?_) fun j hj => ?_
    · simp only [dataLba, descLba]
      omega
    · simp only [dataLba, descLba]
      omega
    · rw [Nat.zero_add]
      exact hkept j hj

/-! ## Recovery -/

/-- A recovery that replays a journal goes through all of its records. -/
theorem accepted_of_recover {dev' : Dev} (hrun : journalRecover dev = (.ok (), dev'))
    (hempty : ¬ headerEmpty (dev.blocks journalStart)) :
    dev.validLba journalStart ∧ headerAccepted (dev.blocks journalStart) ∧
      ∃ t, recoverRecords ((dev.blocks journalStart).u32 20) 0 dev = (.ok (), t) := by
  by_cases hstart : dev.validLba journalStart
  case neg =>
    rw [journalRecover, Act.bind_of_error (readBlock_of_invalid hstart)] at hrun
    cases hrun
  by_cases haccepted : headerAccepted (dev.blocks journalStart)
  case neg =>
    rw [journalRecover_of_rejected hstart hempty haccepted] at hrun
    cases hrun
  rw [journalRecover_of_accepted hstart hempty haccepted] at hrun
  obtain ⟨_, t, hloop, -⟩ := Act.bind_eq_ok hrun
  exact ⟨hstart, haccepted, t, hloop⟩

/-- After the change of a byte of its payload, recovery gets to record `i` and reports it. -/
theorem recover_of_payloadByte {dev' : Dev} (hrun : journalRecover dev = (.ok (), dev'))
    (hempty : ¬ headerEmpty (dev.blocks journalStart)) (hi : i < (dev.blocks journalStart).u32 20)
    (hkept : ∀ j < i, targetAt dev.blocks j ≠ dataLba i) (hoff : off < blockSize)
    (hv : v ≠ (dev.blocks (dataLba i)).byte off) :
    (journalRecover (dev.changeByte (dataLba i) off v)).1 = .error .corrupt := by
  obtain ⟨hstart, haccepted, t, hloop⟩ := accepted_of_recover hrun hempty
  obtain ⟨m, hm⟩ : ∃ m, (dev.blocks journalStart).u32 20 = i + (m + 1) :=
    ⟨(dev.blocks journalStart).u32 20 - (i + 1), by omega⟩
  rw [hm, recoverRecords_add, recoverRecords, Nat.zero_add] at hloop
  obtain ⟨_, s, hbefore, hrest⟩ := Act.bind_eq_ok hloop
  obtain ⟨_, u, hrecord, -⟩ := Act.bind_eq_ok hrest
  obtain ⟨hok, -, -⟩ := recoverRecord_eq_ok hrecord
  obtain ⟨hsame, hbefore'⟩ := recoverRecords_upTo hbefore hkept off v
  have hrecord' := recoverRecord_of_payloadByte hok.readable hok.checksum hoff (hsame ▸ hv)
  have hheader : (dev.changeByte (dataLba i) off v).blocks journalStart = dev.blocks journalStart :=
    changeByte_of_ne (by simp only [journalStart, dataLba, descLba]; omega)
  have hstart' : (dev.changeByte (dataLba i) off v).validLba journalStart := hstart
  rw [journalRecover_of_accepted hstart' (hheader.symm ▸ hempty) (hheader.symm ▸ haccepted),
    hheader, hm, recoverRecords_add, Act.bind_assoc, Act.bind_of_ok hbefore', recoverRecords,
    Nat.zero_add, Act.bind_assoc, Act.bind_of_error hrecord']

/-- **Single bytes.**  The checksums of two byte strings of any length that differ in exactly one
byte are different.  So the checksum of a header sees every change outside its own field, and
recovery reports a header that was intact unless it now says that the journal is empty.  The
comparison of a payload fails after every change of one of its bytes, and then the record is
reported; and if recovery went well before the change, it reports the changed journal, unless the
byte was overwritten by the payload of an earlier record. -/
theorem single_byte_exposed :
    (∀ (n j : ℕ) (src src' : ℕ → UInt8), j < n → src j ≠ src' j →
      (∀ i < n, i ≠ j → src i = src' i) → checksum src n ≠ checksum src' n) ∧
    (∀ (h : Block) (off : ℕ) (v : UInt8), off < blockSize → off < 24 ∨ 28 ≤ off → v ≠ h.byte off →
      headerChecksum (h.setByte off v) ≠ headerChecksum h) ∧
    (∀ (dev : Dev) (off : ℕ) (v : UInt8), off < blockSize → v ≠ (dev.blocks journalStart).byte off →
      dev.validLba journalStart → HeaderIntact (dev.blocks journalStart) →
      ¬ headerEmpty ((dev.blocks journalStart).setByte off v) →
      journalRecover (dev.changeByte journalStart off v) =
        (.error .corrupt, dev.changeByte journalStart off v)) ∧
    (∀ (dev : Dev) (i off : ℕ) (v : UInt8), off < blockSize →
      v ≠ (dev.blocks (dataLba i)).byte off → PayloadIntact dev.blocks i →
      ¬ PayloadIntact (dev.changeByte (dataLba i) off v).blocks i ∧
        (dev.validLba (dataLba i) → recoverRecord i (dev.changeByte (dataLba i) off v) =
          (.error .corrupt, dev.changeByte (dataLba i) off v))) ∧
    ∀ (dev dev' : Dev) (i off : ℕ) (v : UInt8), off < blockSize →
    v ≠ (dev.blocks (dataLba i)).byte off →
      journalRecover dev = (.ok (), dev') → ¬ headerEmpty (dev.blocks journalStart) →
      i < (dev.blocks journalStart).u32 20 → (∀ j < i, targetAt dev.blocks j ≠ dataLba i) →
      (journalRecover (dev.changeByte (dataLba i) off v)).1 = .error .corrupt := by
  refine ⟨?_, ?_, ?_, ?_, ?_⟩
  · exact fun n j src src' hj hne hsame => checksum_ne hj hne hsame
  · exact fun h off v hoff houtside hv => headerChecksum_setByte_ne h hoff houtside hv
  · exact fun dev off v hoff hv hstart hintact hempty =>
      recover_of_headerByte hstart hintact hoff hv hempty
  · exact fun dev i off v hoff hv hintact => ⟨not_payloadIntact_changeByte hintact hoff hv,
      fun hread => recoverRecord_of_payloadByte hread hintact hoff hv⟩
  · exact fun dev dev' i off v hoff hv hrun hempty hi hkept =>
      recover_of_payloadByte hrun hempty hi hkept hoff hv

theorem recover_oneRecord : ∃ dev', journalRecover oneRecord = (.ok (), dev') := by
  have hpending := pending_oneRecord
  have hvalid : ∀ w ∈ homeWrites [strayRecord] ++ [clearWrite], oneRecord.validLba w.1 := by
    intro w hw
    rcases List.mem_append.mp hw with hw | hw
    · obtain ⟨r, hr, rfl⟩ := List.mem_map.mp hw
      exact hpending.txOk.valid r hr
    · rw [List.mem_singleton.mp hw]
      exact hpending.start
  rw [journalRecover_of_committed (by decide) hpending.txOk hpending.committed, writeAll_eq hvalid,
    accepted_of_neg (by decide), if_pos rfl]
  exact ⟨_, rfl⟩

/-- The journal with one record for block 30: a change of the last byte of its header, and one of
the first byte of its payload. -/
theorem single_byte_exposed_one_record :
    checksum (fun _ => 0) 1 ≠ checksum (fun _ => 9) 1 ∧
      headerChecksum ((zero : Block).setByte 0 9) ≠ headerChecksum zero ∧
      journalRecover (oneRecord.changeByte journalStart 511 9) =
        (.error .corrupt, oneRecord.changeByte journalStart 511 9) ∧
      recoverRecord 0 (oneRecord.changeByte (dataLba 0) 0 9) =
        (.error .corrupt, oneRecord.changeByte (dataLba 0) 0 9) ∧
      (journalRecover (oneRecord.changeByte (dataLba 0) 0 9)).1 = .error .corrupt := by
  obtain ⟨hbytes, hheader, hheaders, hpayload, hpayloads⟩ := single_byte_exposed
  have hann := pending_oneRecord.announces
  have hlogged := pending_oneRecord.logged
  have hv : (9 : UInt8) ≠ (oneRecord.blocks (dataLba 0)).byte 0 := by
    rw [hlogged.data 0 strayRecord rfl]
    decide
  obtain ⟨dev', hrun⟩ := recover_oneRecord
  have hv' : (9 : UInt8) ≠ (oneRecord.blocks journalStart).byte 511 := by decide
  refine ⟨?_, ?_, ?_, ?_, ?_⟩
  · exact hbytes 1 0 _ _ (by decide) (by decide) fun i hi hne => absurd (Nat.lt_one_iff.mp hi) hne
  · exact hheader zero 0 9 (by decide) (Or.inl (by decide)) (by decide)
  · exact hheaders oneRecord 511 9 (by decide) hv' hann.valid (not_not.mp hann.accepted.2)
      (setByte_not_empty hann.accepted 511 9)
  · refine (hpayload oneRecord 0 0 9 (by decide) hv ?_).2 (hann.readable 0 (by decide))
    rw [PayloadIntact, hlogged.data 0 strayRecord rfl, hlogged.checksum 0 strayRecord rfl]
  · exact hpayloads oneRecord dev' 0 0 9 (by decide) hv hrun hann.nonempty
      (by rw [hann.count]; decide) fun j hj => absurd hj (Nat.not_lt_zero j)

end Mcsos.M16
