import Mcsos.M16.Recovery

/-!
# When recovery fails closed

`m16_journal_recover` is meant to reject a corrupt journal without applying any of it, but it
checks and replays record by record: a record that fails its checks is met after the ones before
it have been written to their targets.  This file says exactly when a recovery that returns
`M16_E_CORRUPT` has changed nothing, for an arbitrary device image.

`CorruptAfter total b i n` follows the records from record `i` on: `n` of them pass the checks and
the next one fails.  Since a target may lie inside the journal, each record is taken as it stands
when the ones before it have been copied: `targetAt` and `payloadAt` read it from that image.
-/

namespace Mcsos.M16

open Bytes

/-- Block `lba` exists on a device of `total` blocks. -/
def blockExists (total lba : ℕ) : Prop := lba < total ∧ lba < maxBlocks

/-- Record `i` of the image `b` passes the checks of recovery. -/
structure RecordOk (total : ℕ) (b : ℕ → Block) (i : ℕ) : Prop where
  readable : blockExists total (dataLba i)
  magic : (b (descLba i)).u64 0 = jmagic
  target : blockExists total ((b (descLba i)).u32 8)
  checksum : (checksum (b (dataLba i)).byte blockSize).toNat = (b (descLba i)).u32 12

/-- Record `i` of the image `b` is readable and fails the checks of recovery. -/
def RecordCorrupt (total : ℕ) (b : ℕ → Block) (i : ℕ) : Prop :=
  blockExists total (descLba i) ∧
    ((b (descLba i)).u64 0 ≠ jmagic ∨ ¬ blockExists total ((b (descLba i)).u32 8) ∨
      (blockExists total (dataLba i) ∧
        (checksum (b (dataLba i)).byte blockSize).toNat ≠ (b (descLba i)).u32 12))

/-- The image after the payload of record `i` has been copied to its target. -/
def copyRecord (b : ℕ → Block) (i : ℕ) : ℕ → Block :=
  Function.update b ((b (descLba i)).u32 8) (b (dataLba i))

/-- The image after the payloads of `n` records, from record `i` on, have been copied. -/
def copyRecords (b : ℕ → Block) : (i n : ℕ) → ℕ → Block
  | _, 0 => b
  | i, n + 1 => copyRecords (copyRecord b i) (i + 1) n

/-- From record `i` on, `n` records are good and the next one is corrupt. -/
def CorruptAfter (total : ℕ) (b : ℕ → Block) : (i n : ℕ) → Prop
  | i, 0 => RecordCorrupt total b i
  | i, n + 1 => RecordOk total b i ∧ CorruptAfter total (copyRecord b i) (i + 1) n

/-- The target of record `i`, as it stands when the records before it have been copied. -/
def targetAt (b : ℕ → Block) (i : ℕ) : ℕ := (copyRecords b 0 i (descLba i)).u32 8

/-- The payload of record `i`, as it stands when the records before it have been copied. -/
def payloadAt (b : ℕ → Block) (i : ℕ) : Block := copyRecords b 0 i (dataLba i)

/-- Among the first `n` records, the last one for each target carries what the target already
holds. -/
def Redundant (b : ℕ → Block) (n : ℕ) : Prop :=
  ∀ i < n, (∀ j, i < j → j < n → targetAt b j ≠ targetAt b i) → payloadAt b i = b (targetAt b i)

theorem copyRecords_succ (b : ℕ → Block) (i n : ℕ) :
    copyRecords b i (n + 1) = copyRecord (copyRecords b i n) (i + n) := by
  induction n generalizing b i with
  | zero => rfl
  | succ n ih =>
      rw [copyRecords, ih, copyRecords, Nat.succ_add_eq_add_succ]

/-- A block is left alone, or it holds the payload of the last record that is aimed at it. -/
theorem copyRecords_cases (b : ℕ → Block) (n t : ℕ) :
    ((∀ i < n, targetAt b i ≠ t) ∧ copyRecords b 0 n t = b t) ∨
      ∃ i < n, targetAt b i = t ∧ (∀ j, i < j → j < n → targetAt b j ≠ t) ∧
        copyRecords b 0 n t = payloadAt b i := by
  induction n with
  | zero => exact Or.inl ⟨fun i hi => absurd hi (Nat.not_lt_zero i), rfl⟩
  | succ n ih =>
      have hcopy : copyRecords b 0 (n + 1) =
          Function.update (copyRecords b 0 n) (targetAt b n) (payloadAt b n) := by
        rw [copyRecords_succ, Nat.zero_add]
        rfl
      by_cases ht : targetAt b n = t
      · refine Or.inr ⟨n, Nat.lt_succ_self n, ht, fun j _ _ => by omega, ?_⟩
        rw [hcopy, ht, Function.update_self]
      rw [hcopy, Function.update_of_ne (Ne.symm ht)]
      rcases ih with ⟨hall, heq⟩ | ⟨i, hi, hti, hlast, heq⟩
      · refine Or.inl ⟨fun i hi => ?_, heq⟩
        rcases Nat.lt_succ_iff_lt_or_eq.mp hi with hlt | rfl
        · exact hall i hlt
        · exact ht
      · refine Or.inr ⟨i, Nat.lt_succ_of_lt hi, hti, fun j hij hj => ?_, heq⟩
        rcases Nat.lt_succ_iff_lt_or_eq.mp hj with hlt | rfl
        · exact hlast j hij hlt
        · exact ht

/-- Copying the first `n` records changes nothing exactly when they are redundant. -/
theorem copyRecords_eq_self_iff (b : ℕ → Block) (n : ℕ) :
    copyRecords b 0 n = b ↔ Redundant b n := by
  constructor
  · intro hsame i hi hlast
    rcases copyRecords_cases b n (targetAt b i) with ⟨hall, -⟩ | ⟨j, hj, htarget, hlast', heq⟩
    · exact absurd rfl (hall i hi)
    · -- both `i` and `j` are the last record for this target
      obtain rfl : j = i := by
        rcases Nat.lt_trichotomy i j with hij | hij | hij
        · exact absurd htarget (hlast j hij hj)
        · exact hij.symm
        · exact absurd rfl (hlast' i hij hi)
      rw [← heq, hsame]
  · intro hredundant
    funext t
    rcases copyRecords_cases b n t with ⟨-, heq⟩ | ⟨i, hi, rfl, hlast, heq⟩
    · exact heq
    · rw [heq]
      exact hredundant i hi hlast

/-! As long as the targets lie outside the journal, all of this can be read off the image. -/

/-- Copying records whose targets lie outside the journal leaves the journal alone. -/
theorem copyRecords_of_inJournal {b : ℕ → Block} {n : ℕ} (hn : n ≤ journalMaxRecords)
    (hout : ∀ i < n, ¬ inJournal ((b (descLba i)).u32 8)) {lba : ℕ} (hlba : inJournal lba) :
    copyRecords b 0 n lba = b lba := by
  induction n generalizing lba with
  | zero => rfl
  | succ n ih =>
      have hbefore : ∀ {x}, inJournal x → copyRecords b 0 n x = b x :=
        ih (Nat.le_of_succ_le hn) fun i hi => hout i (Nat.lt_succ_of_lt hi)
      have htarget : ¬ inJournal ((copyRecords b 0 n (descLba n)).u32 8) := by
        rw [hbefore (inJournal_record hn).1]
        exact hout n (Nat.lt_succ_self n)
      have hne : lba ≠ (copyRecords b 0 n (descLba n)).u32 8 := fun heq => htarget (heq ▸ hlba)
      rw [copyRecords_succ, Nat.zero_add, copyRecord, Function.update_of_ne hne]
      exact hbefore hlba

theorem targetAt_of_outside {b : ℕ → Block} {i n : ℕ} (hn : n ≤ journalMaxRecords) (hi : i < n)
    (hout : ∀ i < n, ¬ inJournal ((b (descLba i)).u32 8)) :
    targetAt b i = (b (descLba i)).u32 8 := by
  rw [targetAt, copyRecords_of_inJournal (hi.le.trans hn) (fun j hj => hout j (hj.trans hi))
    (inJournal_record (hi.trans_le hn)).1]

theorem payloadAt_of_outside {b : ℕ → Block} {i n : ℕ} (hn : n ≤ journalMaxRecords) (hi : i < n)
    (hout : ∀ i < n, ¬ inJournal ((b (descLba i)).u32 8)) : payloadAt b i = b (dataLba i) := by
  rw [payloadAt, copyRecords_of_inJournal (hi.le.trans hn) (fun j hj => hout j (hj.trans hi))
    (inJournal_record (hi.trans_le hn)).2]

/-- For targets outside the journal, records are redundant if the last payload in the journal for
each target is what the target holds. -/
theorem redundant_iff_of_outside {b : ℕ → Block} {n : ℕ} (hn : n ≤ journalMaxRecords)
    (hout : ∀ i < n, ¬ inJournal ((b (descLba i)).u32 8)) :
    Redundant b n ↔
      ∀ i < n, (∀ j, i < j → j < n → (b (descLba j)).u32 8 ≠ (b (descLba i)).u32 8) →
        b (dataLba i) = b ((b (descLba i)).u32 8) := by
  have htarget := fun i (hi : i < n) => targetAt_of_outside hn hi hout
  have hpayload := fun i (hi : i < n) => payloadAt_of_outside hn hi hout
  constructor
  · intro h i hi hlast
    rw [← hpayload i hi, ← htarget i hi]
    refine h i hi fun j hij hj => ?_
    rw [htarget j hj, htarget i hi]
    exact hlast j hij hj
  · intro h i hi hlast
    rw [hpayload i hi, htarget i hi]
    refine h i hi fun j hij hj => ?_
    rw [← htarget j hj, ← htarget i hi]
    exact hlast j hij hj

variable {dev : Dev}

theorem blockExists_descLba {total i : ℕ} (h : blockExists total (dataLba i)) :
    blockExists total (descLba i) :=
  ⟨(Nat.lt_succ_self _).trans h.1, (Nat.lt_succ_self _).trans h.2⟩

/-- For a good record all that is left is to write its payload home. -/
theorem recoverRecord_of_good {i : ℕ} (h : RecordOk dev.totalBlocks dev.blocks i) :
    recoverRecord i dev =
      writeBlock ((dev.blocks (descLba i)).u32 8) (dev.blocks (dataLba i)) dev := by
  have hdesc : dev.validLba (descLba i) := blockExists_descLba h.readable
  have htarget : dev.validLba ((dev.blocks (descLba i)).u32 8) := h.target
  rw [recoverRecord, Act.bind_of_ok (readBlock_of_valid hdesc), Act.get_bind_apply,
    Act.failIf_bind_of_not (not_or.mpr ⟨not_not.mpr h.magic, not_not.mpr htarget⟩),
    Act.bind_of_ok (readBlock_of_valid h.readable),
    Act.failIf_bind_of_not (not_not.mpr h.checksum)]

/-- A good record is copied. -/
theorem recoverRecord_of_ok {i : ℕ} (hfail : dev.failAfter < 0)
    (h : RecordOk dev.totalBlocks dev.blocks i) :
    recoverRecord i dev =
      (.ok (), dev.store ((dev.blocks (descLba i)).u32 8) (dev.blocks (dataLba i))) := by
  have htarget : dev.validLba ((dev.blocks (descLba i)).u32 8) := h.target
  rw [recoverRecord_of_good h, writeBlock_of_valid htarget (by omega)]

/-- A corrupt record is reported, and nothing is written for it. -/
theorem recoverRecord_of_corrupt {i : ℕ} (h : RecordCorrupt dev.totalBlocks dev.blocks i) :
    recoverRecord i dev = (.error .corrupt, dev) := by
  obtain ⟨hdesc, hbad⟩ := h
  have hread : readBlock (descLba i) dev = (.ok (dev.blocks (descLba i)), dev) :=
    readBlock_of_valid hdesc
  rw [recoverRecord, Act.bind_of_ok hread, Act.get_bind_apply]
  by_cases hfields : (dev.blocks (descLba i)).u64 0 ≠ jmagic ∨
      ¬ dev.validLba ((dev.blocks (descLba i)).u32 8)
  · rw [Act.failIf_bind_of_pos hfields]
  · have hchecksum : dev.validLba (dataLba i) ∧
        (checksum (dev.blocks (dataLba i)).byte blockSize).toNat ≠
        (dev.blocks (descLba i)).u32 12 := by
      rcases hbad with hmagic | htarget | hchecksum
      · exact absurd (Or.inl hmagic) hfields
      · exact absurd (Or.inr htarget) hfields
      · exact hchecksum
    rw [Act.failIf_bind_of_not hfields, Act.bind_of_ok (readBlock_of_valid hchecksum.1),
      Act.failIf_bind_of_pos hchecksum.2]

/-- Every record is good, corrupt, or in part behind the end of the device. -/
theorem recoverRecord_cases (dev : Dev) (i : ℕ) :
    RecordOk dev.totalBlocks dev.blocks i ∨ RecordCorrupt dev.totalBlocks dev.blocks i ∨
      recoverRecord i dev = (.error .inval, dev) := by
  by_cases hdesc : dev.validLba (descLba i)
  · by_cases hfields : (dev.blocks (descLba i)).u64 0 ≠ jmagic ∨
        ¬ dev.validLba ((dev.blocks (descLba i)).u32 8)
    · exact Or.inr (Or.inl ⟨hdesc, hfields.imp_right Or.inl⟩)
    · by_cases hdata : dev.validLba (dataLba i)
      · by_cases hsum : (checksum (dev.blocks (dataLba i)).byte blockSize).toNat =
            (dev.blocks (descLba i)).u32 12
        · exact Or.inl ⟨hdata, not_not.mp (not_or.mp hfields).1, not_not.mp (not_or.mp hfields).2,
            hsum⟩
        · exact Or.inr (Or.inl ⟨hdesc, Or.inr (Or.inr ⟨hdata, hsum⟩)⟩)
      · right; right
        rw [recoverRecord, Act.bind_of_ok (readBlock_of_valid hdesc), Act.get_bind_apply,
          Act.failIf_bind_of_not hfields, Act.bind_of_error (readBlock_of_invalid hdata)]
  · right; right
    rw [recoverRecord, Act.bind_of_error (readBlock_of_invalid hdesc)]

/-- A record that is replayed was good, and its payload is written home. -/
theorem recoverRecord_eq_ok {s : Dev} {i : ℕ} (hrun : recoverRecord i dev = (.ok (), s)) :
    RecordOk dev.totalBlocks dev.blocks i ∧ dev.failAfter ≠ 0 ∧
      s = dev.store ((dev.blocks (descLba i)).u32 8) (dev.blocks (dataLba i)) := by
  rcases recoverRecord_cases dev i with hok | hcorrupt | hinval
  · have htarget : dev.validLba ((dev.blocks (descLba i)).u32 8) := hok.target
    rw [recoverRecord_of_good hok] at hrun
    by_cases hfail : dev.failAfter = 0
    · rw [writeBlock_of_exhausted htarget hfail] at hrun
      cases hrun
    · rw [writeBlock_of_valid htarget hfail] at hrun
      exact ⟨hok, hfail, (Prod.mk.inj hrun).2.symm⟩
  · rw [recoverRecord_of_corrupt hcorrupt] at hrun
    cases hrun
  · rw [hinval] at hrun
    cases hrun

/-- The records that are replayed are copied. -/
theorem recoverRecords_eq_ok {s : Dev} {k i : ℕ} (hrun : recoverRecords k i dev = (.ok (), s)) :
    s.totalBlocks = dev.totalBlocks ∧ s.blocks = copyRecords dev.blocks i k := by
  induction k generalizing dev i with
  | zero =>
      obtain ⟨-, rfl⟩ := Prod.mk.inj hrun
      exact ⟨rfl, rfl⟩
  | succ k ih =>
      rw [recoverRecords] at hrun
      obtain ⟨_, t, hfirst, hrest⟩ := Act.bind_eq_ok hrun
      obtain ⟨-, -, rfl⟩ := recoverRecord_eq_ok hfirst
      exact ih hrest

/-- The replay loop stops at a corrupt record, with the good ones before it copied. -/
theorem recoverRecords_of_corruptAfter {remaining i n : ℕ} (hfail : dev.failAfter < 0)
    (hn : n < remaining) (h : CorruptAfter dev.totalBlocks dev.blocks i n) :
    (recoverRecords remaining i dev).1 = .error .corrupt ∧
      (recoverRecords remaining i dev).2.blocks = copyRecords dev.blocks i n := by
  obtain ⟨remaining, rfl⟩ : ∃ k, remaining = k + 1 := ⟨remaining - 1, by omega⟩
  induction n generalizing dev i remaining with
  | zero =>
      rw [recoverRecords, Act.bind_of_error (recoverRecord_of_corrupt h)]
      exact ⟨rfl, rfl⟩
  | succ n ih =>
      obtain ⟨hok, hrest⟩ := h
      obtain ⟨remaining, rfl⟩ : ∃ k, remaining = k + 1 := ⟨remaining - 1, by omega⟩
      rw [recoverRecords, Act.bind_of_ok (recoverRecord_of_ok hfail hok)]
      exact ih (store_failAfter_of_neg hfail _ _) hrest remaining (by omega)

/-- The replay loop reports corruption only at a corrupt record. -/
theorem exists_corruptAfter {remaining i : ℕ} (hfail : dev.failAfter < 0)
    (h : (recoverRecords remaining i dev).1 = .error .corrupt) :
    ∃ n < remaining, CorruptAfter dev.totalBlocks dev.blocks i n := by
  induction remaining generalizing dev i with
  | zero => cases h
  | succ remaining ih =>
      rcases recoverRecord_cases dev i with hok | hcorrupt | hinval
      · rw [recoverRecords, Act.bind_of_ok (recoverRecord_of_ok hfail hok)] at h
        obtain ⟨n, hn, hrest⟩ := ih (store_failAfter_of_neg hfail _ _) h
        exact ⟨n + 1, by omega, hok, hrest⟩
      · exact ⟨0, by omega, hcorrupt⟩
      · rw [recoverRecords, Act.bind_of_error hinval] at h
        cases h

theorem journalClear_ne_corrupt (dev : Dev) : (journalClear dev).1 ≠ .error .corrupt := by
  unfold journalClear writeBlock
  split_ifs <;> simp

/-- Recovery reports corruption for a header it does not accept, and then has changed nothing, or
at a corrupt record of an accepted journal. -/
theorem recover_corrupt_iff (hfail : dev.failAfter < 0) :
    (journalRecover dev).1 = .error .corrupt ↔
      dev.validLba journalStart ∧ ¬ headerEmpty (dev.blocks journalStart) ∧
        (headerAccepted (dev.blocks journalStart) →
          ∃ n < (dev.blocks journalStart).u32 20, CorruptAfter dev.totalBlocks dev.blocks 0 n) := by
  by_cases hvalid : dev.validLba journalStart
  case neg =>
      rw [journalRecover, Act.bind_of_error (readBlock_of_invalid hvalid)]
      simp [hvalid]
  by_cases hempty : headerEmpty (dev.blocks journalStart)
  · rw [journalRecover_of_empty hvalid hempty]
    simp [hempty]
  by_cases haccepted : headerAccepted (dev.blocks journalStart)
  case neg =>
      rw [journalRecover_of_rejected hvalid hempty haccepted]
      simp [hvalid, hempty, haccepted]
  rw [journalRecover_of_accepted hvalid hempty haccepted, Act.bind_apply]
  simp only [hvalid, hempty, haccepted, not_false_eq_true, true_and, true_implies]
  constructor
  -- the loop itself reported it: clearing the header cannot
  · intro h
    apply exists_corruptAfter hfail
    cases hrun : recoverRecords ((dev.blocks journalStart).u32 20) 0 dev with
    | mk r dev' =>
        rw [hrun] at h
        cases r with
        | ok u => exact absurd h (journalClear_ne_corrupt dev')
        | error e => exact h
  · rintro ⟨n, hn, hcorrupt⟩
    have hrun := (recoverRecords_of_corruptAfter hfail hn hcorrupt).1
    cases hstate : recoverRecords ((dev.blocks journalStart).u32 20) 0 dev with
    | mk r dev' =>
        rw [hstate] at hrun
        cases r with
        | ok u => cases hrun
        | error e => exact hrun

/-- What a recovery that meets a corrupt record leaves behind. -/
theorem recover_blocks_of_corruptAfter (hfail : dev.failAfter < 0)
    (hvalid : dev.validLba journalStart) (hempty : ¬ headerEmpty (dev.blocks journalStart))
    (haccepted : headerAccepted (dev.blocks journalStart)) {n : ℕ}
    (hn : n < (dev.blocks journalStart).u32 20)
    (h : CorruptAfter dev.totalBlocks dev.blocks 0 n) :
    (journalRecover dev).2.blocks = copyRecords dev.blocks 0 n := by
  obtain ⟨hresult, hblocks⟩ := recoverRecords_of_corruptAfter hfail hn h
  rw [journalRecover_of_accepted hvalid hempty haccepted, Act.bind_apply]
  cases hstate : recoverRecords ((dev.blocks journalStart).u32 20) 0 dev with
  | mk r dev' =>
      rw [hstate] at hresult hblocks
      cases r with
      | ok u => cases hresult
      | error e => exact hblocks

private theorem validLba_of_corruptAfter {n : ℕ} (h : CorruptAfter dev.totalBlocks dev.blocks 0 n) :
    dev.validLba journalStart := by
  have hdesc : blockExists dev.totalBlocks (descLba 0) := by
    cases n with
    | zero => exact h.1
    | succ n => exact blockExists_descLba h.1.readable
  simp only [blockExists, Dev.validLba, descLba, journalStart, maxBlocks] at hdesc ⊢
  omega

/-- **When recovery fails closed.**  With fault injection disabled, a recovery that returns
`M16_E_CORRUPT` has left every block alone if and only if the good records in front of the first
corrupt one, if there is one, carry what their targets already hold. -/
theorem recover_fails_closed_iff (dev : Dev) (hfail : dev.failAfter < 0) :
    ((journalRecover dev).1 = .error .corrupt → (journalRecover dev).2.blocks = dev.blocks) ↔
      (¬ headerEmpty (dev.blocks journalStart) → headerAccepted (dev.blocks journalStart) →
        ∀ n < (dev.blocks journalStart).u32 20, CorruptAfter dev.totalBlocks dev.blocks 0 n →
          Redundant dev.blocks n) := by
  constructor
  · intro h hempty haccepted n hn hcorrupt
    have hvalid := validLba_of_corruptAfter hcorrupt
    rw [← copyRecords_eq_self_iff,
      ← recover_blocks_of_corruptAfter hfail hvalid hempty haccepted hn hcorrupt]
    exact h ((recover_corrupt_iff hfail).mpr ⟨hvalid, hempty, fun _ => ⟨n, hn, hcorrupt⟩⟩)
  · intro h hresult
    obtain ⟨hvalid, hempty, hrecord⟩ := (recover_corrupt_iff hfail).mp hresult
    by_cases haccepted : headerAccepted (dev.blocks journalStart)
    · obtain ⟨n, hn, hcorrupt⟩ := hrecord haccepted
      rw [recover_blocks_of_corruptAfter hfail hvalid hempty haccepted hn hcorrupt,
        copyRecords_eq_self_iff]
      exact h hempty haccepted n hn hcorrupt
    · rw [journalRecover_of_rejected hvalid hempty haccepted]

/-- A record for block 30. -/
def strayRecord : Jrec := ⟨30, zero.setU32 0 7⟩

/-- A committed journal of two records whose second descriptor is all zero. -/
def strayJournal : Dev :=
  { devInit with
    blocks := applyWrites [(journalStart, commitHeader 2 2), (descLba 0, descriptor strayRecord),
      (dataLba 0, strayRecord.payload)] devInit.blocks }

/-- The same journal, on a device whose block 30 holds the payload of the first record already. -/
def settledJournal : Dev :=
  { strayJournal with blocks := Function.update strayJournal.blocks 30 strayRecord.payload }

private theorem strayRecord_corruptAfter {b : ℕ → Block}
    (hdesc : b (descLba 0) = descriptor strayRecord) (hdata : b (dataLba 0) = strayRecord.payload)
    (hsecond : b (descLba 1) = zero) :
    CorruptAfter maxBlocks b 0 1 := by
  have hsmall : strayRecord.targetLba % 2 ^ 32 = 30 := rfl
  refine ⟨⟨⟨by decide, by decide⟩, ?_, ?_, ?_⟩, ⟨by decide, by decide⟩, Or.inl ?_⟩
  · rw [hdesc, descriptor_magic]
  · rw [hdesc, descriptor_target, hsmall]
    exact ⟨by decide, by decide⟩
  · rw [hdesc, hdata, descriptor_checksum]
  · rw [copyRecord, hdesc, descriptor_target, hsmall, Function.update_of_ne (by decide), hsecond,
      u64_zero]
    decide

/-- Recovery of `settledJournal` replays its first record, reports corruption at the second one,
and has changed nothing. -/
theorem settledJournal_fails_closed :
    (journalRecover settledJournal).1 = .error .corrupt ∧
      (journalRecover settledJournal).2.blocks = settledJournal.blocks := by
  have hheader : settledJournal.blocks journalStart = commitHeader 2 2 := rfl
  have hcount : (settledJournal.blocks journalStart).u32 20 = 2 := by
    rw [hheader, commitHeader_count 2 (by decide)]
  have htarget : (settledJournal.blocks (descLba 0)).u32 8 = 30 := by
    change (descriptor strayRecord).u32 8 = 30
    rw [descriptor_target]
    rfl
  have hcorrupt : CorruptAfter settledJournal.totalBlocks settledJournal.blocks 0 1 :=
    strayRecord_corruptAfter rfl rfl rfl
  have hresult : (journalRecover settledJournal).1 = .error .corrupt :=
    (recover_corrupt_iff (by decide)).mpr ⟨⟨by decide, by decide⟩,
      hheader ▸ commitHeader_not_empty 2 2, fun _ => ⟨1, by omega, hcorrupt⟩⟩
  refine ⟨hresult, (recover_fails_closed_iff settledJournal (by decide)).mpr ?_ hresult⟩
  intro _ _ n hn _
  have hfirst : ∀ i < n, i = 0 := fun i hi => by omega
  have hout : ∀ i < n, ¬ inJournal ((settledJournal.blocks (descLba i)).u32 8) := by
    intro i hi
    rw [hfirst i hi, htarget]
    decide
  rw [redundant_iff_of_outside (by rw [hcount] at hn; exact hn.le.trans (by decide)) hout]
  intro i hi _
  rw [hfirst i hi, htarget]
  rfl

/-! ## A journal that is replayed in part -/

private theorem strayJournal_corruptAfter :
    CorruptAfter strayJournal.totalBlocks strayJournal.blocks 0 1 :=
  strayRecord_corruptAfter rfl rfl rfl

/-- Recovery of `strayJournal` reports corruption with block 30 already overwritten. -/
theorem strayJournal_replayed :
    strayJournal.failAfter < 0 ∧ (journalRecover strayJournal).1 = .error .corrupt ∧
      (journalRecover strayJournal).2.blocks 30 ≠ strayJournal.blocks 30 := by
  have hfail : strayJournal.failAfter < 0 := by decide
  have hheader : strayJournal.blocks journalStart = commitHeader 2 2 := rfl
  have hvalid : strayJournal.validLba journalStart := ⟨by decide, by decide⟩
  have hempty : ¬ headerEmpty (strayJournal.blocks journalStart) :=
    hheader ▸ commitHeader_not_empty 2 2
  have haccepted : headerAccepted (strayJournal.blocks journalStart) :=
    hheader ▸ commitHeader_accepted 2 (by decide)
  have hcount : 1 < (strayJournal.blocks journalStart).u32 20 := by
    rw [hheader, commitHeader_count 2 (by decide)]
    decide
  refine ⟨hfail, (recover_corrupt_iff hfail).mpr
    ⟨hvalid, hempty, fun _ => ⟨1, hcount, strayJournal_corruptAfter⟩⟩, ?_⟩
  rw [recover_blocks_of_corruptAfter hfail hvalid hempty haccepted hcount strayJournal_corruptAfter]
  have hcopied : copyRecords strayJournal.blocks 0 1 30 = zero.setU32 0 7 := by
    change Function.update strayJournal.blocks ((descriptor strayRecord).u32 8) _ 30 = _
    rw [descriptor_target]
    rfl
  have hold : strayJournal.blocks 30 = zero := rfl
  rw [hcopied, hold]
  intro heq
  have := congrArg (fun b : Block => b.byte 0) heq
  exact absurd this (by decide)

end Mcsos.M16
