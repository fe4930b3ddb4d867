import Mcsos.M16.Journal

/-!
# Commit and recovery as lists of writes

Between two errors a journal operation is a fixed list of block writes, carried out in order until
the device stops accepting them.  `writeAll_eq` says what such a list does on a device with any
fault injection counter, and `journalCommit_eq` brings the commit into that form, as
`journalRecover_of_committed` does with the recovery of a committed journal.  Crash reasoning
afterwards is about initial parts of these lists only.
-/

namespace Mcsos.M16

/-- How many of `n` further writes to valid blocks the device accepts. -/
def Dev.accepted (dev : Dev) (n : ℕ) : ℕ :=
  if dev.failAfter < 0 then n else min n dev.failAfter.toNat

/-- The device after the writes `ws`, all accepted. -/
def Dev.storeAll (dev : Dev) (ws : List (ℕ × Block)) : Dev :=
  ws.foldl (fun d w => d.store w.1 w.2) dev

/-- Writes block after block, and stops at the first error. -/
def writeAll : List (ℕ × Block) → DevM Unit
  | [] => pure ()
  | w :: ws => do
      writeBlock w.1 w.2
      writeAll ws

@[simp] theorem storeAll_nil (dev : Dev) : dev.storeAll [] = dev := rfl

theorem storeAll_cons (dev : Dev) (w : ℕ × Block) (ws : List (ℕ × Block)) :
    dev.storeAll (w :: ws) = (dev.store w.1 w.2).storeAll ws := rfl

@[simp] theorem storeAll_totalBlocks (dev : Dev) (ws : List (ℕ × Block)) :
    (dev.storeAll ws).totalBlocks = dev.totalBlocks := by
  induction ws generalizing dev with
  | nil => rfl
  | cons w ws ih => rw [storeAll_cons, ih, store_totalBlocks]

@[simp] theorem storeAll_blocks (dev : Dev) (ws : List (ℕ × Block)) :
    (dev.storeAll ws).blocks = applyWrites ws dev.blocks := by
  induction ws generalizing dev with
  | nil => rfl
  | cons w ws ih => rw [storeAll_cons, ih, store_blocks, applyWrites]

theorem store_failAfter_of_neg {dev : Dev} (h : dev.failAfter < 0) (lba : ℕ) (b : Block) :
    (dev.store lba b).failAfter < 0 := by
  rw [Dev.store, if_neg (by omega)]
  exact h

theorem storeAll_failAfter_of_neg {dev : Dev} (h : dev.failAfter < 0) (ws : List (ℕ × Block)) :
    (dev.storeAll ws).failAfter = dev.failAfter := by
  induction ws generalizing dev with
  | nil => rfl
  | cons w ws ih =>
      have hstore : (dev.store w.1 w.2).failAfter = dev.failAfter := if_neg (by omega)
      rw [storeAll_cons, ih (store_failAfter_of_neg h _ _), hstore]

theorem storeAll_failAfter_of_le {dev : Dev} {ws : List (ℕ × Block)}
    (h : (ws.length : ℤ) ≤ dev.failAfter) :
    (dev.storeAll ws).failAfter = dev.failAfter - ws.length := by
  induction ws generalizing dev with
  | nil => simp
  | cons w ws ih =>
      rw [List.length_cons] at h ⊢
      have hstore : (dev.store w.1 w.2).failAfter = dev.failAfter - 1 := if_pos (by omega)
      rw [storeAll_cons, ih (by omega), hstore]
      omega

theorem accepted_le (dev : Dev) (n : ℕ) : dev.accepted n ≤ n := by
  unfold Dev.accepted
  split
  · exact Nat.le_refl n
  · exact Nat.min_le_left _ _

theorem accepted_of_neg {dev : Dev} (h : dev.failAfter < 0) (n : ℕ) : dev.accepted n = n :=
  if_pos h

/-- After one accepted write the device accepts one write less. -/
theorem accepted_store {dev : Dev} (h : dev.failAfter ≠ 0) (lba : ℕ) (data : Block)
    (n : ℕ) : dev.accepted (n + 1) = (dev.store lba data).accepted n + 1 := by
  unfold Dev.accepted Dev.store
  dsimp only
  split_ifs <;> omega

/-- A list of writes to valid blocks is carried out up to the point where the device stops
accepting writes. -/
theorem writeAll_eq {dev : Dev} {ws : List (ℕ × Block)} (hvalid : ∀ w ∈ ws, dev.validLba w.1) :
    writeAll ws dev =
      (if dev.accepted ws.length = ws.length then .ok () else .error .io,
        dev.storeAll (ws.take (dev.accepted ws.length))) := by
  induction ws generalizing dev with
  | nil =>
      have : dev.accepted 0 = 0 := Nat.le_zero.mp (accepted_le dev 0)
      simp [writeAll, this]
  | cons w ws ih =>
      have hhead : dev.validLba w.1 := hvalid w List.mem_cons_self
      by_cases hfail : dev.failAfter = 0
      · have hnone : dev.accepted (ws.length + 1) = 0 := by
          unfold Dev.accepted
          rw [if_neg (by omega), hfail]
          exact Nat.min_zero _
        rw [writeAll, Act.bind_of_error (writeBlock_of_exhausted hhead hfail w.2)]
        simp [hnone]
      · have htail : ∀ v ∈ ws, (dev.store w.1 w.2).validLba v.1 := fun v hv =>
          hvalid v (List.mem_cons_of_mem w hv)
        rw [writeAll, Act.bind_of_ok (writeBlock_of_valid hhead hfail w.2), ih htail,
          List.length_cons, accepted_store hfail w.1 w.2, List.take_succ_cons, storeAll_cons]
        simp only [Nat.add_right_cancel_iff]

theorem writeAll_append (ws vs : List (ℕ × Block)) :
    writeAll (ws ++ vs) = (do writeAll ws; writeAll vs) := by
  induction ws with
  | nil => rfl
  | cons w ws ih =>
      rw [List.cons_append, writeAll, writeAll, ih, Act.bind_assoc]

/-! ## Commit -/

/-- The writes of the record loop, from record `i` on. -/
def recordWrites : (i : ℕ) → Tx → List (ℕ × Block)
  | _, [] => []
  | i, r :: rest => (descLba i, descriptor r) :: (dataLba i, r.payload) :: recordWrites (i + 1) rest

/-- The writes of the payloads to their targets. -/
def homeWrites (tx : Tx) : List (ℕ × Block) := tx.map fun r => (r.targetLba, r.payload)

/-- The write of `m16_journal_clear`. -/
def clearWrite : ℕ × Block := (journalStart, Bytes.zero)

/-- The writes of a commit up to and including the one that commits. -/
def logWrites (tx : Tx) (seq : ℕ) : List (ℕ × Block) :=
  clearWrite :: (recordWrites 0 tx ++ [(journalStart, commitHeader seq tx.length)])

/-- All writes of a commit. -/
def commitWrites (tx : Tx) (seq : ℕ) (stop : Bool) : List (ℕ × Block) :=
  logWrites tx seq ++ if stop then [] else homeWrites tx ++ [clearWrite]

@[simp] theorem length_recordWrites (i : ℕ) (tx : Tx) :
    (recordWrites i tx).length = 2 * tx.length := by
  induction tx generalizing i with
  | nil => rfl
  | cons r rest ih =>
      simp only [recordWrites, List.length_cons, ih]
      omega

/-- The write that commits a transaction of `n` records is number `2 * n + 2`. -/
@[simp] theorem length_logWrites (tx : Tx) (seq : ℕ) :
    (logWrites tx seq).length = 2 * tx.length + 2 := by
  simp [logWrites]

@[simp] theorem length_homeWrites (tx : Tx) : (homeWrites tx).length = tx.length :=
  List.length_map ..

theorem length_commitWrites (tx : Tx) (seq : ℕ) :
    (commitWrites tx seq false).length = 3 * tx.length + 3 := by
  rw [commitWrites, List.length_append, length_logWrites, if_neg Bool.false_ne_true,
    List.length_append, length_homeWrites, List.length_singleton]
  omega

private theorem commitRecords_eq (i : ℕ) (tx : Tx) :
    commitRecords i tx = writeAll (recordWrites i tx) := by
  induction tx generalizing i with
  | nil => rfl
  | cons r rest ih => simp only [commitRecords, recordWrites, writeAll, ih]

private theorem commitHome_eq (tx : Tx) : commitHome tx = writeAll (homeWrites tx) := by
  induction tx with
  | nil => rfl
  | cons r rest ih =>
      change (do writeBlock r.targetLba r.payload; commitHome rest) = _
      rw [ih]
      rfl

theorem writeAll_singleton (w : ℕ × Block) : writeAll [w] = writeBlock w.1 w.2 := by
  funext dev
  change (writeBlock w.1 w.2 >>= fun _ => pure ()) dev = _
  rw [Act.bind_apply]
  cases writeBlock w.1 w.2 dev with
  | mk r dev' => cases r <;> rfl

/-- A commit is the list of its writes. -/
theorem journalCommit_eq {tx : Tx} (hcount : tx.length ≤ journalMaxRecords) (seq : ℕ)
    (stop : Bool) : journalCommit tx seq stop = writeAll (commitWrites tx seq stop) := by
  have hclear : journalClear = writeAll [clearWrite] := (writeAll_singleton clearWrite).symm
  have hheader : writeBlock journalStart (commitHeader seq tx.length) =
      writeAll [(journalStart, commitHeader seq tx.length)] :=
    (writeAll_singleton (journalStart, commitHeader seq tx.length)).symm
  rw [journalCommit, Act.failIf_bind_of_not (Nat.not_lt.mpr hcount), commitRecords_eq,
    commitHome_eq, hclear, hheader, commitWrites, logWrites, writeAll_append,
    ← List.singleton_append (l := recordWrites 0 tx ++ _), writeAll_append, writeAll_append]
  cases stop with
  | true =>
      simp only [if_true, Act.bind_assoc]
      rfl
  | false =>
      rw [if_neg Bool.false_ne_true, if_neg Bool.false_ne_true, writeAll_append]
      simp only [Act.bind_assoc]

end Mcsos.M16
