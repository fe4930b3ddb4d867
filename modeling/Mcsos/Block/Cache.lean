import Mcsos.Block.Device
import Mcsos.Lib.Bytes
import Mcsos.Lib.Prog

/-!
# The buffer cache

The cache holds copies of blocks in a fixed number of entries, with write back: a write changes the
copy and marks it dirty, and the block goes to its device when the entry is needed for another block
or when the cache is flushed.

Functions of the source that change the cache return it together with their status; they are
programs against the devices, addressed by device pointer and block number.
-/

namespace Mcsos.Block

open Prog

/-- `struct mcsos_bcache_entry`, with a buffer of `bs` bytes. -/
structure Entry (δ : Type) (bs : ℕ) where
  data : Bytes bs
  lba : ℕ
  valid : Bool
  dirty : Bool
  dev : Option δ

/-- `struct mcsos_bcache`, with blocks of `bs` bytes. -/
structure Cache (δ : Type) (bs : ℕ) where
  entries : ℕ → Entry δ bs
  entryCount : ℕ
  clockHand : ℕ

/-- A program against the devices. -/
abbrev BlkM (δ : Type) (bs : ℕ) (α : Type) : Type := Prog (δ × ℕ) (Bytes bs) Err α

variable {δ : Type} [DecidableEq δ] {bs : ℕ} (devs : δ → Device)

/-- `mcsos_bcache_init`; `pool` is what the buffers hold. -/
def bcacheInit (entryCount : ℕ) (pool : ℕ → Bytes bs) : Except Err (Cache δ bs) :=
  if entryCount = 0 ∨ bs = 0 then .error .einval
  else .ok ⟨fun i => ⟨pool i, 0, false, false, none⟩, entryCount, 0⟩

/-- Replaces entry `i`. -/
def Cache.setEntry (c : Cache δ bs) (i : ℕ) (e : Entry δ bs) : Cache δ bs :=
  { c with entries := Function.update c.entries i e }

/-- `mcsos_blk_read` of one block. -/
def blkReadOne (p : δ) (lba : ℕ) : BlkM δ bs (Bytes bs) :=
  match validateRange (devs p) lba 1 with
  | .error e => .fail e
  | .ok _ => readBlock (p, lba)

/-- `mcsos_blk_write` of one block; the device pointer of an entry may be null. -/
def blkWriteOne (dev : Option δ) (lba : ℕ) (data : Bytes bs) : BlkM δ bs Unit :=
  match dev with
  | none => .fail .einval
  | some p =>
      match validateRange (devs p) lba 1 with
      | .error e => .fail e
      | .ok _ => writeBlock (p, lba) data

/-- `mcsos_bcache_find` -/
def Cache.find (c : Cache δ bs) (p : δ) (lba : ℕ) : Option ℕ :=
  (List.range c.entryCount).find? fun i =>
    (c.entries i).valid && decide ((c.entries i).dev = some p) && (c.entries i).lba == lba

/-- `mcsos_bcache_flush_entry` -/
def flushEntry (e : Entry δ bs) : BlkM δ bs (Except Err Unit × Entry δ bs) :=
  if e.valid = false ∨ e.dirty = false then pure (.ok (), e)
  else do
    match ← (blkWriteOne devs e.dev e.lba e.data).attempt with
    | .error st => pure (.error st, e)
    | .ok _ => pure (.ok (), { e with dirty := false })

/-- The entry that the search of `mcsos_bcache_select_victim` looks at in a pass. -/
def Cache.victimAt (c : Cache δ bs) (start pass : ℕ) : ℕ := (start + pass) % 2 ^ 32 % c.entryCount

/-- `mcsos_bcache_select_victim` -/
def selectVictim (c : Cache δ bs) : BlkM δ bs (Except Err ℕ × Cache δ bs) :=
  if c.entryCount = 0 then pure (.error .einval, c)
  else
    let start := c.clockHand % c.entryCount % 2 ^ 32
    match (List.range c.entryCount).find? fun pass =>
      !(c.entries (c.victimAt start pass)).valid with
    | some pass =>
        let idx := c.victimAt start pass
        pure (.ok idx, { c with clockHand := (idx + 1) % 2 ^ 32 })
    | none => do
        let c := { c with clockHand := (start + 1) % 2 ^ 32 }
        let (st, e) ← flushEntry devs (c.entries start)
        let c := c.setEntry start e
        match st with
        | .error st => pure (.error st, c)
        | .ok _ => pure (.ok start, c)

/-- `mcsos_bcache_read`; it returns the bytes copied to the buffer. -/
def bcacheRead (c : Cache δ bs) (p : δ) (lba : ℕ) :
    BlkM δ bs (Except Err (Bytes bs) × Cache δ bs) :=
  if bs ≠ (devs p).blockSize then pure (.error .einval, c)
  else
    match c.find p lba with
    | some i => pure (.ok (c.entries i).data, c)
    | none => do
        let (st, c) ← selectVictim devs c
        match st with
        | .error st => pure (.error st, c)
        | .ok i =>
            match ← (blkReadOne devs p lba).attempt with
            | .error st => pure (.error st, c.setEntry i { c.entries i with valid := false })
            | .ok data =>
                pure (.ok data, c.setEntry i
                  { data := data, lba := lba, valid := true, dirty := false, dev := some p })

/-- `mcsos_bcache_write` -/
def bcacheWrite (c : Cache δ bs) (p : δ) (lba : ℕ) (buffer : Bytes bs) :
    BlkM δ bs (Except Err Unit × Cache δ bs) :=
  if bs ≠ (devs p).blockSize then pure (.error .einval, c)
  else
    match c.find p lba with
    | some i => pure (.ok (), c.setEntry i { c.entries i with data := buffer, dirty := true })
    | none => do
        let (st, c) ← selectVictim devs c
        match st with
        | .error st => pure (.error st, c)
        | .ok i =>
            pure (.ok (), c.setEntry i
              { data := buffer, lba := lba, valid := true, dirty := true, dev := some p })

/-- The loop of `mcsos_bcache_flush_all`, from entry `i` on. -/
def flushFrom : (remaining i : ℕ) → Cache δ bs → BlkM δ bs (Except Err Unit × Cache δ bs)
  | 0, _, c => pure (.ok (), c)
  | remaining + 1, i, c => do
      let (st, e) ← flushEntry devs (c.entries i)
      let c := c.setEntry i e
      match st with
      | .error st => pure (.error st, c)
      | .ok _ => flushFrom remaining (i + 1) c

/-- `mcsos_bcache_flush_all` -/
def bcacheFlushAll (c : Cache δ bs) : BlkM δ bs (Except Err Unit × Cache δ bs) :=
  flushFrom devs c.entryCount 0 c

end Mcsos.Block
