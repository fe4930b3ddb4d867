import Mcsos.M16.Device

/-!
# Committing and recovering a journal transaction

The journal occupies the blocks `1, …, 17`: a header block, then a descriptor and a payload block
for each of at most eight records.  `journalCommit` clears the header, writes the records, writes
the header that commits them, copies every payload to its target and clears the header again.
`journalRecover` replays a committed journal.
-/

namespace Mcsos.M16

open Act (failIf)

/-- `struct m16_jrec` -/
structure Jrec where
  targetLba : ℕ
  payload : Block

/-- `struct m16_tx`: its `count` is the length of the list of records. -/
abbrev Tx : Type := List Jrec

/-- `m16_tx_add` -/
def txAdd (tx : Tx) (lba : ℕ) (payload : Block) : Except Err Tx :=
  if journalMaxRecords ≤ tx.length then .error .nospc else .ok (tx ++ [⟨lba, payload⟩])

/-! ## The blocks of the journal

`struct m16_journal_header` has `magic` at byte 0, `version` at 8, `state` at 12, `seq` at 16,
`count` at 20 and `header_checksum` at 24; `struct m16_journal_desc` has `magic` at 0,
`target_lba` at 8 and `payload_checksum` at 12. -/

/-- `m16_header_checksum`: the checksum of the header with its own checksum field zero. -/
def headerChecksum (h : Block) : UInt32 := checksum (h.setU32 24 0).byte blockSize

/-- The commit header without its checksum. -/
def commitHeaderBody (seq count : ℕ) : Block :=
  ((((Bytes.zero.setU64 0 jmagic).setU32 8 version).setU32 12 jCommitted).setU32 16 seq).setU32 20
    count

/-- The header block that commits `count` records. -/
def commitHeader (seq count : ℕ) : Block :=
  (commitHeaderBody seq count).setU32 24 (headerChecksum (commitHeaderBody seq count)).toNat

/-- The descriptor block of a record. -/
def descriptor (r : Jrec) : Block :=
  ((Bytes.zero.setU64 0 jmagic).setU32 8 r.targetLba).setU32 12
    (checksum r.payload.byte blockSize).toNat

/-- The block of the descriptor of record `i`. -/
def descLba (i : ℕ) : ℕ := journalStart + 1 + i * 2

/-- The block of the payload of record `i`. -/
def dataLba (i : ℕ) : ℕ := descLba i + 1

/-! ## Commit -/

/-- `m16_journal_clear` -/
def journalClear : DevM Unit := writeBlock journalStart Bytes.zero

/-- The first loop of `m16_journal_commit`, from record `i` on. -/
def commitRecords : (i : ℕ) → Tx → DevM Unit
  | _, [] => pure ()
  | i, r :: rest => do
      writeBlock (descLba i) (descriptor r)
      writeBlock (dataLba i) r.payload
      commitRecords (i + 1) rest

/-- The second loop of `m16_journal_commit`, which writes the payloads home. -/
def commitHome : Tx → DevM Unit
  | [] => pure ()
  | r :: rest => do
      writeBlock r.targetLba r.payload
      commitHome rest

/-- `m16_journal_commit` -/
def journalCommit (tx : Tx) (seq : ℕ) (stopAfterCommitRecord : Bool) : DevM Unit := do
  failIf (journalMaxRecords < tx.length) .inval
  journalClear
  commitRecords 0 tx
  writeBlock journalStart (commitHeader seq tx.length)
  if stopAfterCommitRecord then pure () else do
    commitHome tx
    journalClear

/-! ## Recovery -/

/-- One round of the loop of `m16_journal_recover`: check record `i` and write it home. -/
def recoverRecord (i : ℕ) : DevM Unit := do
  let d ← readBlock (descLba i)
  let dev ← Act.get
  failIf (d.u64 0 ≠ jmagic ∨ ¬ dev.validLba (d.u32 8)) .corrupt
  let payload ← readBlock (dataLba i)
  failIf ((checksum payload.byte blockSize).toNat ≠ d.u32 12) .corrupt
  writeBlock (d.u32 8) payload

/-- The loop of `m16_journal_recover`: `remaining` more records, from record `i` on. -/
def recoverRecords : (remaining i : ℕ) → DevM Unit
  | 0, _ => pure ()
  | remaining + 1, i => do
      recoverRecord i
      recoverRecords remaining (i + 1)

/-- The header says that the journal is empty. -/
def headerEmpty (h : Block) : Prop := h.u64 0 = 0 ∧ h.u32 12 = jEmpty

/-- The header passes the field checks and the checksum test of `m16_journal_recover`. -/
def headerAccepted (h : Block) : Prop :=
  ¬ (h.u64 0 ≠ jmagic ∨ h.u32 8 ≠ version ∨ h.u32 12 ≠ jCommitted ∨ journalMaxRecords < h.u32 20) ∧
    ¬ (headerChecksum h).toNat ≠ h.u32 24

instance (h : Block) : Decidable (headerEmpty h) := inferInstanceAs (Decidable (_ ∧ _))

instance (h : Block) : Decidable (headerAccepted h) := inferInstanceAs (Decidable (_ ∧ _))

/-- `m16_journal_recover` -/
def journalRecover : DevM Unit := do
  let h ← readBlock journalStart
  if headerEmpty h then pure () else do
    failIf (h.u64 0 ≠ jmagic ∨ h.u32 8 ≠ version ∨ h.u32 12 ≠ jCommitted ∨
      journalMaxRecords < h.u32 20) .corrupt
    failIf ((headerChecksum h).toNat ≠ h.u32 24) .corrupt
    recoverRecords (h.u32 20) 0
    journalClear

end Mcsos.M16
