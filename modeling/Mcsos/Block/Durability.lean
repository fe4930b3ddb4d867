import Mcsos.Block.Coherence
import Mcsos.Block.Ram
import Mcsos.Lib.Run

/-!
# Writing everything back

A read miss goes to the device, which rejects a block out of range.  A write miss does not: the
cache takes any block number, and finds out only when the entry is to be written back.  As long as
the writes are in range, so is everything in the cache, no request to a RAM device fails, and
flushing puts all data on the devices (`cache_durable_iff`).
-/

namespace Mcsos.Block

open Prog Function

variable {δ : Type} [DecidableEq δ] {bs : ℕ} (devs : δ → Device)

/-- Everything the entries hold is in range. -/
def Ranged (n : ℕ) (es : ℕ → Entry δ bs) : Prop := ∀ j < n, ∀ b, (es j).Holds b → InRange devs b

/-! ## Nothing fails on healthy devices -/

section Healthy

variable {devs} {L d : Store δ bs} {c : Cache δ bs}

theorem run_blkWriteOne {p : δ} {lba : ℕ} (hlba : lba < (devs p).blockCount) (data : Bytes bs)
    (d : Store δ bs) :
    run (blkWriteOne devs (some p) lba data) d = (.ok (), update d (p, lba) data) := by
  unfold blkWriteOne
  dsimp only
  rw [validateRange_one, if_pos hlba]
  rfl

theorem run_blkReadOne (p : δ) (lba : ℕ) (d : Store δ bs) :
    run (blkReadOne devs p lba) d =
      (if lba < (devs p).blockCount then .ok (d (p, lba)) else .error .erange, d) := by
  unfold blkReadOne
  rw [validateRange_one]
  split_ifs <;> rfl

theorem run_flushEntry {e : Entry δ bs} (he : e.valid = true → ∃ a, e.Holds a ∧ InRange devs a)
    (d : Store δ bs) : ∃ e' d', run (flushEntry devs e) d = (.ok (.ok (), e'), d') := by
  unfold flushEntry
  by_cases hidle : e.valid = false ∨ e.dirty = false
  · rw [if_pos hidle]
    exact ⟨e, d, rfl⟩
  rw [if_neg hidle]
  have hvalid : e.valid = true := by
    by_contra hne
    exact hidle (Or.inl (by simpa using hne))
  obtain ⟨⟨p, lba⟩, ⟨_, hdev, rfl⟩, hrange⟩ := he hvalid
  have hwrite : run (blkWriteOne devs e.dev e.lba e.data) d =
      (.ok (), update d (p, e.lba) e.data) := by
    rw [hdev]
    exact run_blkWriteOne hrange e.data d
  have hattempt : run (blkWriteOne devs e.dev e.lba e.data).attempt d =
      (.ok (.ok ()), update d (p, e.lba) e.data) := by
    rw [run_attempt, hwrite]
  rw [run_bind_ok hattempt]
  exact ⟨_, _, rfl⟩

omit [DecidableEq δ] in
theorem Coherent.held_inRange {n : ℕ} {es : ℕ → Entry δ bs} (h : Coherent L n es d)
    (hr : Ranged devs n es) {i : ℕ} (hi : i < n) (hvalid : (es i).valid = true) :
    ∃ a, (es i).Holds a ∧ InRange devs a := by
  obtain ⟨a, ha⟩ := h.bound i hi hvalid
  exact ⟨a, ha, hr i hi a ha⟩

theorem run_selectVictim (h : Coherent L c.entryCount c.entries d)
    (hr : Ranged devs c.entryCount c.entries) (hpos : 0 < c.entryCount) :
    ∃ i c' d', run (selectVictim devs c) d = (.ok (.ok i, c'), d') := by
  unfold selectVictim
  rw [if_neg hpos.ne']
  dsimp only
  split
  · exact ⟨_, _, _, rfl⟩
  · have hlt : c.clockHand % c.entryCount % 2 ^ 32 < c.entryCount :=
      (Nat.mod_le _ _).trans_lt (Nat.mod_lt _ hpos)
    obtain ⟨e', d', hrun⟩ := run_flushEntry (h.held_inRange hr hlt) d
    rw [run_bind_ok hrun]
    exact ⟨_, _, _, rfl⟩

/-- A cached read succeeds just when the block is in range. -/
theorem run_bcacheRead (h : Coherent L c.entryCount c.entries d)
    (hr : Ranged devs c.entryCount c.entries) (hpos : 0 < c.entryCount) {p : δ}
    (hsize : (devs p).blockSize = bs) (lba : ℕ) :
    ∃ st c' d', run (bcacheRead devs c p lba) d = (.ok (st, c'), d') ∧
      ((∃ e, st = .error e) ↔ ¬ lba < (devs p).blockCount) := by
  unfold bcacheRead
  rw [if_neg (not_not.mpr hsize.symm)]
  cases hfind : c.find p lba with
  | some i =>
      obtain ⟨hi, hheld⟩ := find_some hfind
      -- the hit itself is not range checked, but the entry got there in range
      have hrange : lba < (devs p).blockCount := hr i hi _ hheld
      exact ⟨_, _, _, rfl, fun ⟨e, he⟩ => (by cases he), fun hn => absurd hrange hn⟩
  | none =>
      obtain ⟨i, c', d', hrun⟩ := run_selectVictim h hr hpos
      dsimp only
      rw [run_bind_ok hrun]
      have hread : run (blkReadOne devs p lba).attempt d' =
          (.ok (if lba < (devs p).blockCount then .ok (d' (p, lba)) else .error .erange), d') := by
        rw [run_attempt, run_blkReadOne]
      dsimp only
      rw [run_bind_ok hread]
      by_cases hlba : lba < (devs p).blockCount
      · rw [if_pos hlba]
        exact ⟨_, _, _, rfl, fun ⟨e, he⟩ => (by cases he), fun hn => absurd hlba hn⟩
      · rw [if_neg hlba]
        exact ⟨_, _, _, rfl, fun _ => hlba, fun _ => ⟨_, rfl⟩⟩

/-- A cached write succeeds, in range or not. -/
theorem run_bcacheWrite (h : Coherent L c.entryCount c.entries d)
    (hr : Ranged devs c.entryCount c.entries) (hpos : 0 < c.entryCount) {p : δ}
    (hsize : (devs p).blockSize = bs) (lba : ℕ) (buffer : Bytes bs) :
    ∃ c' d', run (bcacheWrite devs c p lba buffer) d = (.ok (.ok (), c'), d') := by
  unfold bcacheWrite
  rw [if_neg (not_not.mpr hsize.symm)]
  cases hfind : c.find p lba with
  | some i => exact ⟨_, _, rfl⟩
  | none =>
      obtain ⟨i, c', d', hrun⟩ := run_selectVictim h hr hpos
      dsimp only
      rw [run_bind_ok hrun]
      exact ⟨_, _, rfl⟩

theorem run_flushFrom :
    ∀ {r i : ℕ} {c : Cache δ bs} {d : Store δ bs}, i + r = c.entryCount →
      Coherent L c.entryCount c.entries d → Ranged devs c.entryCount c.entries →
      ∃ c' d', run (flushFrom devs r i c) d = (.ok (.ok (), c'), d') := by
  intro r
  induction r with
  | zero => exact fun _ _ _ => ⟨_, _, rfl⟩
  | succ r ih =>
      intro i c d hi h hr
      have hlt : i < c.entryCount := by omega
      obtain ⟨e', d', hrun⟩ := run_flushEntry (h.held_inRange hr hlt) d
      obtain ⟨_, ⟨rfl⟩, hf⟩ := (flushEntry_returns devs (c.entries i) d).exec (exec_of_run hrun)
      have hcount : i + 1 + r = (c.setEntry i e').entryCount := by
        dsimp only [Cache.setEntry]
        omega
      obtain ⟨c', d'', hrest⟩ := ih hcount (hf.coherent h hlt).1 fun j hj b hb =>
        hr j hj b ((hf.holds j b).mp hb)
      refine ⟨c', d'', ?_⟩
      unfold flushFrom
      rw [run_bind_ok hrun]
      exact hrest

end Healthy

/-! ## A cache over RAM devices -/

/-- A cache over RAM devices, with the data of the last write to each address that succeeded. -/
structure System (δ : Type) (bs : ℕ) where
  cache : Cache δ bs
  mem : δ → Ramblk
  last : δ × ℕ → Option (Bytes bs)

/-- Runs a function of the cache. -/
def System.call {α : Type} (f : Cache δ bs → BlkM δ bs (Except Err α × Cache δ bs))
    (x : System δ bs) : Except Err α × System δ bs :=
  match interp (ramDriver devs) (f x.cache) x.mem with
  | (.ok (st, c), mem) => (st, { x with cache := c, mem := mem })
  | (.error st, mem) => (.error st, { x with mem := mem })

/-- The calls that read and write blocks. -/
inductive Call (δ : Type) (bs : ℕ) where
  | read (p : δ) (lba : ℕ)
  | write (p : δ) (lba : ℕ) (buffer : Bytes bs)

/-- The system after a call. -/
def Call.step : Call δ bs → System δ bs → System δ bs
  | .read p lba, x => (x.call devs fun c => bcacheRead devs c p lba).2
  | .write p lba buffer, x =>
      match x.call devs fun c => bcacheWrite devs c p lba buffer with
      | (.ok _, y) => { y with last := update y.last (p, lba) (some buffer) }
      | (.error _, y) => y

/-- Flushing succeeds, leaves no dirty entry, and the data of every write is on its device then. -/
def System.Durable (x : System δ bs) : Prop :=
  let y := x.call devs (bcacheFlushAll devs)
  y.1 = .ok () ∧ (∀ i < y.2.cache.entryCount, (y.2.cache.entries i).dirty = false) ∧
    ∀ p lba data, x.last (p, lba) = some data →
      blkRead devs y.2.mem p lba 1 = .ok ((List.range bs).map data.byte)

/-- The call is rejected just when the direct request is out of range. -/
def Call.Exact : Call δ bs → System δ bs → Prop
  | .read p lba, x => (∃ st, (x.call devs fun c => bcacheRead devs c p lba).1 = .error st) ↔
      blkRead devs x.mem p lba 1 = .error .erange
  | .write p lba buffer, x =>
      (∃ st, (x.call devs fun c => bcacheWrite devs c p lba buffer).1 = .error st) ↔
        blkWrite devs x.mem p lba 1 buffer.byte = .error .erange

/-- Writes are in range. -/
def Call.Fits : Call δ bs → Prop
  | .read _ _ => True
  | .write p lba _ => lba < (devs p).blockCount

/-- The invariant of the system, for devices that held `d₀` at the start. -/
structure Ready (d₀ : Store δ bs) (x : System δ bs) : Prop where
  ram : RamOk devs bs x.mem
  pos : 0 < x.cache.entryCount
  coherent : Coherent (fun a => (x.last a).getD (d₀ a)) x.cache.entryCount x.cache.entries
    (ramBlocks bs x.mem)
  ranged : Ranged devs x.cache.entryCount x.cache.entries
  last : ∀ a data, x.last a = some data → InRange devs a

section System

variable {devs} {d₀ : Store δ bs} {x : System δ bs}

/-- A function of the cache runs on RAM devices as on a healthy store. -/
theorem call_eq {α : Type} {f : Cache δ bs → BlkM δ bs (Except Err α × Cache δ bs)}
    (hram : RamOk devs bs x.mem) (hf : Within (InRange devs) (f x.cache)) {st : Except Err α}
    {c' : Cache δ bs} {d' : Store δ bs}
    (hrun : run (f x.cache) (ramBlocks bs x.mem) = (.ok (st, c'), d')) :
    ∃ mem, x.call devs f = (st, { x with cache := c', mem := mem }) ∧ ramBlocks bs mem = d' ∧
      RamOk devs bs mem := by
  obtain ⟨hresult, hstate, hram'⟩ := interp_eq_run (ramDriver_implements devs) hf hram
  rw [hrun] at hresult hstate
  refine ⟨(interp (ramDriver devs) (f x.cache) x.mem).2, ?_, hstate, hram'⟩
  have hpair : interp (ramDriver devs) (f x.cache) x.mem =
      (.ok (st, c'), (interp (ramDriver devs) (f x.cache) x.mem).2) := Prod.ext hresult rfl
  rw [System.call, hpair]

theorem Ready.durable (h : Ready devs d₀ x) : x.Durable devs := by
  obtain ⟨c', d', hrun⟩ := run_flushFrom (Nat.zero_add _) h.coherent h.ranged
  obtain ⟨mem, hcall, hmem, hram⟩ := call_eq (f := bcacheFlushAll devs) h.ram
    (within_flushFrom _ _ _) hrun
  obtain ⟨_, ⟨rfl⟩, hk, hclean⟩ := (bcacheFlushAll_returns devs h.coherent).exec (exec_of_run hrun)
  have hclean' := hclean rfl
  dsimp only at hclean'
  unfold System.Durable
  rw [hcall]
  refine ⟨rfl, fun i hi => hclean' i (hk.count ▸ hi), fun p lba data hlast => ?_⟩
  have hrange : lba < (devs p).blockCount := h.last _ _ hlast
  dsimp only
  rw [blkRead_one hram, if_pos hrange, hmem]
  -- after the flush the block is on the device, cached or not
  have hstored : d' (p, lba) = data := by
    have hL : (x.last (p, lba)).getD (d₀ (p, lba)) = data := by rw [hlast]; rfl
    by_cases hheld : ∃ i < x.cache.entryCount, (c'.entries i).Holds (p, lba)
    · obtain ⟨i, hi, hi'⟩ := hheld
      rw [← hk.coherent.clean i hi _ hi' (hclean' i hi), hk.coherent.latest i hi _ hi', hL]
    · rw [hk.coherent.stored _ fun i hi hi' => hheld ⟨i, hi, hi'⟩, hL]
  rw [hstored]

omit [DecidableEq δ] in
theorem Keeps.ranged {α : Type} {L : Store δ bs} {N : δ × ℕ → Prop} {c : Cache δ bs}
    {y : α × Cache δ bs} {d : Store δ bs} (hk : Keeps L N c y d)
    (hr : Ranged devs c.entryCount c.entries) (hN : ∀ b, N b → InRange devs b) :
    Ranged devs c.entryCount y.2.entries := by
  intro j hj b hb
  rcases hk.holds j b hb with hold | hnew
  · exact hr j hj b hold
  · exact hN b hnew

/-- Reads are exact and keep the invariant. -/
theorem Ready.read (h : Ready devs d₀ x) (p : δ) (lba : ℕ) :
    (Call.read p lba).Exact devs x ∧ Ready devs d₀ ((Call.read p lba).step devs x) := by
  obtain ⟨st, c', d', hrun, hst⟩ := run_bcacheRead h.coherent h.ranged h.pos (h.ram.blockSize p) lba
  obtain ⟨mem, hcall, hmem, hram⟩ := call_eq (f := fun c => bcacheRead devs c p lba) h.ram
    (within_bcacheRead _ _ _) hrun
  obtain ⟨_, ⟨rfl⟩, hk, _⟩ := (bcacheRead_returns devs h.coherent p lba).exec (exec_of_run hrun)
  have hcount : c'.entryCount = x.cache.entryCount := hk.count
  constructor
  · dsimp only [Call.Exact]
    rw [hcall, blkRead_one h.ram]
    refine hst.trans ?_
    split_ifs with hlba
    · exact ⟨fun hn => absurd hlba hn, fun heq => by cases heq⟩
    · exact ⟨fun _ => rfl, fun _ => hlba⟩
  · dsimp only [Call.step]
    rw [hcall]
    refine ⟨hram, ?_, ?_, ?_, h.last⟩
    · exact hcount ▸ h.pos
    · dsimp only
      rw [hcount, hmem]
      exact hk.coherent
    · dsimp only
      rw [hcount]
      exact hk.ranged h.ranged fun b hb => hb

/-- A write is accepted in any case. -/
theorem Ready.write_exact_iff (h : Ready devs d₀ x) (p : δ) (lba : ℕ) (buffer : Bytes bs) :
    (Call.write p lba buffer).Exact devs x ↔ lba < (devs p).blockCount := by
  obtain ⟨c', d', hrun⟩ := run_bcacheWrite h.coherent h.ranged h.pos (h.ram.blockSize p) lba buffer
  obtain ⟨mem, hcall, _⟩ := call_eq (f := fun c => bcacheWrite devs c p lba buffer) h.ram
    (within_bcacheWrite _ _ _ _) hrun
  dsimp only [Call.Exact]
  rw [hcall, blkWrite_one_erange h.ram]
  constructor
  · intro hexact
    by_contra hlba
    obtain ⟨st, hst⟩ := hexact.mpr hlba
    cases hst
  · intro hlba
    exact ⟨fun ⟨st, hst⟩ => (by cases hst), fun hn => absurd hlba hn⟩

/-- A write in range keeps the invariant. -/
theorem Ready.write (h : Ready devs d₀ x) {p : δ} {lba : ℕ} (hlba : lba < (devs p).blockCount)
    (buffer : Bytes bs) : Ready devs d₀ ((Call.write p lba buffer).step devs x) := by
  obtain ⟨c', d', hrun⟩ := run_bcacheWrite h.coherent h.ranged h.pos (h.ram.blockSize p) lba buffer
  obtain ⟨mem, hcall, hmem, hram⟩ := call_eq (f := fun c => bcacheWrite devs c p lba buffer) h.ram
    (within_bcacheWrite _ _ _ _) hrun
  obtain ⟨_, ⟨rfl⟩, hk⟩ :=
    (bcacheWrite_returns devs h.coherent p lba buffer).exec (exec_of_run hrun)
  have hcount : c'.entryCount = x.cache.entryCount := hk.count
  dsimp only [Call.step]
  rw [hcall]
  refine ⟨hram, ?_, ?_, ?_, ?_⟩
  · exact hcount ▸ h.pos
  · dsimp only
    rw [hcount, hmem]
    have hL : (fun a => (update x.last (p, lba) (some buffer) a).getD (d₀ a)) =
        update (fun a => (x.last a).getD (d₀ a)) (p, lba) buffer := by
      funext a
      by_cases ha : a = (p, lba)
      · rw [ha, update_self, update_self]
        rfl
      · rw [update_of_ne ha, update_of_ne ha]
    rw [hL]
    exact hk.coherent
  · dsimp only
    rw [hcount]
    exact hk.ranged h.ranged fun b hb => hb ▸ hlba
  · intro a data hlast
    dsimp only at hlast
    by_cases ha : a = (p, lba)
    · rw [ha]
      exact hlba
    · rw [update_of_ne ha] at hlast
      exact h.last a data hlast

theorem Ready.exact_iff (h : Ready devs d₀ x) (o : Call δ bs) : o.Exact devs x ↔ o.Fits devs := by
  cases o with
  | read p lba => exact ⟨fun _ => trivial, fun _ => (h.read p lba).1⟩
  | write p lba buffer => exact h.write_exact_iff p lba buffer

theorem Ready.step (h : Ready devs d₀ x) {o : Call δ bs} (ho : o.Fits devs) :
    Ready devs d₀ (o.step devs x) := by
  cases o with
  | read p lba => exact (h.read p lba).2
  | write p lba buffer => exact h.write ho buffer

/-- Along a run, calls are exact just when writes are in range, and then everything is durable. -/
theorem Ready.run_iff (h : Ready devs d₀ x) (calls : List (Call δ bs)) :
    AllStates (Call.step devs) (System.Durable devs) calls x ∧
        AllSteps (Call.step devs) (Call.Exact devs) calls x ↔
      ∀ o ∈ calls, o.Fits devs := by
  induction calls generalizing x with
  | nil => exact ⟨fun _ o ho => absurd ho List.not_mem_nil, fun _ => ⟨h.durable, trivial⟩⟩
  | cons o rest ih =>
      rw [List.forall_mem_cons]
      constructor
      · rintro ⟨hstates, hsteps⟩
        -- an exact call fits, so the invariant carries on to the rest of the run
        have ho := (h.exact_iff o).mp hsteps.1
        exact ⟨ho, (ih (h.step ho)).mp ⟨hstates.2, hsteps.2⟩⟩
      · rintro ⟨ho, hrest⟩
        obtain ⟨hstates, hsteps⟩ := (ih (h.step ho)).mpr hrest
        exact ⟨⟨h.durable, hstates⟩, (h.exact_iff o).mpr ho, hsteps⟩

end System

/-- **Durability.**  For RAM devices with the block size of the cache, and any calls that read and
write blocks: flushing always succeeds, leaves nothing dirty and puts the data of the last writes on
the devices, and calls are rejected just when the direct requests are out of range, if and only if
all writes are in range. -/
theorem cache_durable_iff {storage : δ → ℕ → UInt8} {size : δ → ℕ} {mem : δ → Ramblk} {n : ℕ}
    {pool : ℕ → Bytes bs} {c₀ : Cache δ bs} (hsize : ∀ p, size p < 2 ^ 64)
    (hcreated : ∀ p, ramblkInit (storage p) (size p) bs = .ok (devs p, mem p))
    (hinit : bcacheInit n pool = .ok c₀) (calls : List (Call δ bs)) :
    AllStates (Call.step devs) (System.Durable devs) calls ⟨c₀, mem, fun _ => none⟩ ∧
        AllSteps (Call.step devs) (Call.Exact devs) calls ⟨c₀, mem, fun _ => none⟩ ↔
      ∀ o ∈ calls, o.Fits devs := by
  have hready : Ready devs (ramBlocks bs mem) ⟨c₀, mem, fun _ => none⟩ := by
    refine ⟨ramOk_init hsize hcreated, ?_, coherent_init hinit,
      fun j _ b hb => absurd hb (not_holds_init hinit j b), fun a data h => by cases h⟩
    obtain ⟨hcount, hpos, _⟩ := bcacheInit_ok hinit
    exact hcount ▸ hpos
  exact hready.run_iff calls

theorem cache_durable_iff_two_blocks :
    let devs : Unit → Device := fun _ => ⟨512, 2⟩
    let x : System Unit 512 := ⟨⟨fun _ => ⟨Bytes.zero, 0, false, false, none⟩, 1, 0⟩,
      fun _ => ⟨fun _ => 0, 1024⟩, fun _ => none⟩
    let calls : List (Call Unit 512) := [.write () 1 (Bytes.ofFn fun _ => 7), .read () 5]
    AllStates (Call.step devs) (System.Durable devs) calls x ∧
      AllSteps (Call.step devs) (Call.Exact devs) calls x := by
  intro devs x calls
  have hcreated : ∀ p, ramblkInit (fun _ => 0) 1024 512 = .ok (devs p, x.mem p) := fun _ => rfl
  have hinit : bcacheInit 1 (fun _ => Bytes.zero) = .ok x.cache := rfl
  refine (cache_durable_iff devs (fun _ => by decide) hcreated hinit calls).mpr ?_
  simp [calls, devs, Call.Fits]

/-- Block 2 of a device with two blocks: the cache takes it, and cannot be flushed any more. -/
theorem write_out_of_range_accepted :
    let devs : Unit → Device := fun _ => ⟨512, 2⟩
    let x : System Unit 512 := ⟨⟨fun _ => ⟨Bytes.zero, 0, false, false, none⟩, 1, 0⟩,
      fun _ => ⟨fun _ => 0, 1024⟩, fun _ => none⟩
    ramblkInit (fun _ => 0) 1024 512 = .ok (devs (), x.mem ()) ∧
      bcacheInit 1 (fun _ => Bytes.zero) = .ok x.cache ∧
      (x.call devs fun c => bcacheWrite devs c () 2 Bytes.zero).1 = .ok () ∧
      blkWrite devs x.mem () 2 1 (Bytes.zero : Bytes 512).byte = .error .erange ∧
      (((Call.write () 2 Bytes.zero).step devs x).call devs (bcacheFlushAll devs)).1 =
        .error .erange := by
  intro devs x
  exact ⟨rfl, rfl, rfl, rfl, rfl⟩

end Mcsos.Block
