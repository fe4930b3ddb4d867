import Mcsos.M16.Recovery

/-!
# A transaction is atomic under crashes

A commit is cut off after some number of writes, then recovery runs any number of times, each run
cut off as well, and at last once to the end.  What holds in between is one of two things, for a
target content `t` of the blocks outside the journal:

* `Settled b t`: the header is zero and the blocks outside the journal are `t`;
* `Replayable b tx t`: the journal holds `tx`, committed, and writing it home gives `t`.

A commit that is cut off before its header write leaves `Settled` with the old content
(`settled_of_uncommitted`); from the header write on it leaves one of the two with the new content
(`restored_of_committed`).  Recovery keeps the disjunction (`recover_restored`), and a run that is
not cut off ends `Settled` (`recover_settles`).
-/

namespace Mcsos.M16

/-- The journal is empty and the blocks outside it are those of `target`. -/
structure Settled (b target : ℕ → Block) : Prop where
  header : b journalStart = Bytes.zero
  home : ∀ lba, ¬ inJournal lba → b lba = target lba

/-- The journal holds `tx`, committed, and writing it home gives the blocks of `target`. -/
structure Replayable (b : ℕ → Block) (tx : Tx) (target : ℕ → Block) : Prop where
  committed : Committed b tx
  home : ∀ lba, ¬ inJournal lba → applyWrites (homeWrites tx) b lba = target lba

/-- Recovery will bring the blocks outside the journal to `target`. -/
def Restored (b : ℕ → Block) (tx : Tx) (target : ℕ → Block) : Prop :=
  Settled b target ∨ Replayable b tx target

variable {tx : Tx} {b target : ℕ → Block}

theorem inJournal_journalStart : inJournal journalStart := by
  simp [inJournal]

theorem ne_of_outside {lba x : ℕ} (hlba : ¬ inJournal lba) (hx : inJournal x) : x ≠ lba := by
  rintro rfl
  exact hlba hx

/-! ## Writes outside the journal -/

theorem Committed.applyWrites_home (h : Committed b tx) (hcount : tx.length ≤ journalMaxRecords) :
    ∀ {ws : List (ℕ × Block)}, (∀ w ∈ ws, ¬ inJournal w.1) → Committed (applyWrites ws b) tx := by
  intro ws
  induction ws generalizing b with
  | nil => exact fun _ => h
  | cons w ws ih =>
      intro hws
      exact ih (h.update hcount (hws w List.mem_cons_self) w.2)
        fun v hv => hws v (List.mem_cons_of_mem w hv)

private theorem home_outside (houtside : ∀ r ∈ tx, ¬ inJournal r.targetLba) :
    ∀ w ∈ homeWrites tx, ¬ inJournal w.1 := by
  intro w hw
  obtain ⟨r, hr, rfl⟩ := List.mem_map.mp hw
  exact houtside r hr

/-- Any initial part of a replay keeps the disjunction, and the whole of it settles. -/
private theorem replay_take (h : Replayable b tx target) (hcount : tx.length ≤ journalMaxRecords)
    (houtside : ∀ r ∈ tx, ¬ inJournal r.targetLba) (m : ℕ) :
    (m ≤ tx.length →
      Replayable (applyWrites ((homeWrites tx ++ [clearWrite]).take m) b) tx target) ∧
    (tx.length < m →
      Settled (applyWrites ((homeWrites tx ++ [clearWrite]).take m) b) target) := by
  constructor
  · intro hm
    rw [List.take_append_of_le_length (by simpa using hm)]
    have htake : ∀ w ∈ (homeWrites tx).take m, ¬ inJournal w.1 := fun w hw =>
      home_outside houtside w (List.mem_of_mem_take hw)
    refine ⟨h.committed.applyWrites_home hcount htake, fun lba hlba => ?_⟩
    rw [applyWrites_applyWrites_take, h.home lba hlba]
  · intro hm
    have hlen : (homeWrites tx ++ [clearWrite]).length ≤ m := by
      rw [List.length_append, length_homeWrites]
      exact hm
    rw [List.take_of_length_le hlen, applyWrites_append, applyWrites_singleton]
    refine ⟨Function.update_self journalStart _ _, fun lba hlba => ?_⟩
    have hne : lba ≠ journalStart := (ne_of_outside hlba inJournal_journalStart).symm
    exact (Function.update_of_ne hne _ _).trans (h.home lba hlba)

private theorem replay_take_restored (h : Replayable b tx target)
    (hcount : tx.length ≤ journalMaxRecords) (houtside : ∀ r ∈ tx, ¬ inJournal r.targetLba)
    (m : ℕ) : Restored (applyWrites ((homeWrites tx ++ [clearWrite]).take m) b) tx target := by
  rcases Nat.lt_or_ge tx.length m with hm | hm
  · exact Or.inl ((replay_take h hcount houtside m).2 hm)
  · exact Or.inr ((replay_take h hcount houtside m).1 hm)

/-! ## The blocks a commit writes before it is committed -/

private theorem recordWrites_bounds {w : ℕ × Block} :
    ∀ {tx : Tx} {i : ℕ}, w ∈ recordWrites i tx → descLba i ≤ w.1 ∧
      w.1 < descLba (i + tx.length) := by
  intro tx
  induction tx with
  | nil => intro i hw; exact absurd hw List.not_mem_nil
  | cons r rest ih =>
      intro i hw
      simp only [recordWrites, List.mem_cons, List.length_cons] at hw ⊢
      simp only [dataLba, descLba] at hw ih ⊢
      rcases hw with rfl | rfl | hw
      · dsimp only; omega
      · dsimp only; omega
      · have := ih hw
        omega

theorem mem_recordWrites {r : Jrec} :
    ∀ {tx : Tx} {i j : ℕ}, tx[j]? = some r → (dataLba (i + j), r.payload) ∈ recordWrites i tx := by
  intro tx
  induction tx with
  | nil => intro i j hr; simp at hr
  | cons s rest ih =>
      intro i j hr
      simp only [recordWrites, List.mem_cons]
      cases j with
      | zero =>
          obtain rfl : s = r := by simpa using hr
          exact Or.inr (Or.inl rfl)
      | succ j =>
          have hindex : i + (j + 1) = i + 1 + j := by omega
          rw [hindex]
          exact Or.inr (Or.inr (ih (by simpa using hr)))

private theorem recordWrites_inJournal (hcount : tx.length ≤ journalMaxRecords) {w : ℕ × Block}
    (hw : w ∈ recordWrites 0 tx) : inJournal w.1 ∧ w.1 ≠ journalStart := by
  have := recordWrites_bounds hw
  simp only [descLba, inJournal, journalStart, journalBlocks, journalMaxRecords] at *
  omega

/-- The record loop leaves the descriptor and the payload of every record. -/
private theorem recordWrites_get {r : Jrec} :
    ∀ {tx : Tx} {i j : ℕ} {b : ℕ → Block}, tx[j]? = some r →
      applyWrites (recordWrites i tx) b (descLba (i + j)) = descriptor r ∧
      applyWrites (recordWrites i tx) b (dataLba (i + j)) = r.payload := by
  intro tx
  induction tx with
  | nil => intro i j b hr; simp at hr
  | cons s rest ih =>
      intro i j b hr
      cases j with
      | zero =>
          obtain rfl : s = r := by simpa using hr
          -- the records behind this one are written to later blocks
          have hlater : ∀ x, x < descLba (i + 1) → ∀ w ∈ recordWrites (i + 1) rest, w.1 ≠ x := by
            intro x hx w hw heq
            have := (recordWrites_bounds hw).1
            omega
          have hdesc : descLba i < descLba (i + 1) := by unfold descLba; omega
          have hdata : dataLba i < descLba (i + 1) := by unfold dataLba descLba; omega
          have hne : descLba i ≠ dataLba i := (Nat.lt_succ_self _).ne
          simp only [recordWrites, applyWrites, Nat.add_zero]
          rw [applyWrites_of_ne (hlater _ hdesc), applyWrites_of_ne (hlater _ hdata),
            Function.update_of_ne hne, Function.update_self, Function.update_self]
          exact ⟨rfl, rfl⟩
      | succ j =>
          have hrest : rest[j]? = some r := by simpa using hr
          have hindex : i + (j + 1) = i + 1 + j := by omega
          rw [hindex]
          exact ih hrest

/-- Once the header is written the journal is committed, and nothing outside it has changed. -/
theorem replayable_logWrites (hcount : tx.length ≤ journalMaxRecords) (seq : ℕ)
    (b : ℕ → Block) :
    Replayable (applyWrites (logWrites tx seq) b) tx (applyWrites (homeWrites tx) b) := by
  -- the header is written last, over the header cleared first
  have hsplit : ∀ x, applyWrites (logWrites tx seq) b x =
      Function.update (applyWrites (recordWrites 0 tx) (Function.update b journalStart Bytes.zero))
        journalStart (commitHeader seq tx.length) x := by
    intro x
    simp only [logWrites, applyWrites, applyWrites_append]
    rfl
  have hrecord : ∀ i r, tx[i]? = some r → descLba i ≠ journalStart ∧ dataLba i ≠ journalStart := by
    intro i r _
    simp only [dataLba, descLba, journalStart]
    omega
  refine ⟨⟨⟨seq, ?_⟩, ?_, ?_⟩, ?_⟩
  · rw [hsplit, Function.update_self]
  · intro i r hr
    rw [hsplit, Function.update_of_ne (hrecord i r hr).1]
    simpa using (recordWrites_get (i := 0) hr).1
  · intro i r hr
    rw [hsplit, Function.update_of_ne (hrecord i r hr).2]
    simpa using (recordWrites_get (i := 0) hr).2
  · intro lba hlba
    apply applyWrites_congr
    right
    have hne : lba ≠ journalStart := (ne_of_outside hlba inJournal_journalStart).symm
    rw [hsplit, Function.update_of_ne hne, applyWrites_of_ne, Function.update_of_ne hne]
    intro w hw
    exact ne_of_outside hlba (recordWrites_inJournal hcount hw).1

/-- A commit cut off before its header write leaves a zero header and the old blocks. -/
private theorem settled_logWrites_take (hcount : tx.length ≤ journalMaxRecords) (seq : ℕ)
    (hsettled : Settled b target) {m : ℕ} (hm : m < 2 * tx.length + 2) :
    Settled (applyWrites ((logWrites tx seq).take m) b) target := by
  -- short of the header, all writes stay in the journal and leave its header zero
  have hbefore : ∀ w ∈ (logWrites tx seq).take m,
      inJournal w.1 ∧ (w.1 = journalStart → w.2 = Bytes.zero) := by
    intro w hw
    have htaken : (logWrites tx seq).take m = (clearWrite :: recordWrites 0 tx).take m := by
      rw [logWrites, ← List.cons_append, List.take_append_of_le_length]
      simp only [List.length_cons, length_recordWrites]
      omega
    rw [htaken] at hw
    rcases List.mem_cons.mp (List.mem_of_mem_take hw) with rfl | hw
    · exact ⟨inJournal_journalStart, fun _ => rfl⟩
    · have := recordWrites_inJournal hcount hw
      exact ⟨this.1, fun h => absurd h this.2⟩
  generalize (logWrites tx seq).take m = ws at hbefore
  induction ws generalizing b with
  | nil => exact hsettled
  | cons w ws ih =>
      have hw := hbefore w List.mem_cons_self
      refine ih ⟨?_, ?_⟩ fun v hv => hbefore v (List.mem_cons_of_mem w hv)
      · by_cases hstart : w.1 = journalStart
        · rw [hstart, Function.update_self, hw.2 hstart]
        · rw [Function.update_of_ne (Ne.symm hstart), hsettled.header]
      · intro lba hlba
        rw [Function.update_of_ne (ne_of_outside hlba hw.1).symm, hsettled.home lba hlba]

/-! ## Commit and recovery on a device -/

variable {dev : Dev}

/-- The header write of a commit of `tx` is among those the device accepts. -/
def Dev.commits (dev : Dev) (tx : Tx) : Prop :=
  dev.failAfter < 0 ∨ (2 * tx.length + 2 : ℕ) ≤ dev.failAfter

theorem validLba_of_inJournal (hjournal : 18 ≤ dev.totalBlocks) {lba : ℕ} (hlba : inJournal lba) :
    dev.validLba lba := by
  simp only [inJournal, Dev.validLba, journalStart, journalBlocks, maxBlocks] at *
  omega

theorem logWrites_valid (hjournal : 18 ≤ dev.totalBlocks) (hcount : tx.length ≤ journalMaxRecords)
    (seq : ℕ) : ∀ w ∈ logWrites tx seq, dev.validLba w.1 := by
  intro w hw
  rcases List.mem_cons.mp hw with rfl | hw
  · exact validLba_of_inJournal hjournal inJournal_journalStart
  · rcases List.mem_append.mp hw with hw | hw
    · exact validLba_of_inJournal hjournal (recordWrites_inJournal hcount hw).1
    · obtain rfl := List.mem_singleton.mp hw
      exact validLba_of_inJournal hjournal inJournal_journalStart

theorem commitWrites_valid (hjournal : 18 ≤ dev.totalBlocks) (hok : TxOk dev tx) (seq : ℕ)
    (stop : Bool) : ∀ w ∈ commitWrites tx seq stop, dev.validLba w.1 := by
  have hhome : ∀ w ∈ homeWrites tx ++ [clearWrite], dev.validLba w.1 := by
    intro w hw
    rcases List.mem_append.mp hw with hw | hw
    · obtain ⟨r, hr, rfl⟩ := List.mem_map.mp hw
      exact hok.valid r hr
    · obtain rfl := List.mem_singleton.mp hw
      exact validLba_of_inJournal hjournal inJournal_journalStart
  intro w hw
  rcases List.mem_append.mp hw with hw | hw
  · exact logWrites_valid hjournal hok.count seq w hw
  · cases stop with
    | true => simp at hw
    | false => exact hhome w (by simpa using hw)

/-- What a commit leaves behind, as initial part of its writes. -/
theorem journalCommit_apply (hjournal : 18 ≤ dev.totalBlocks) (hok : TxOk dev tx) (seq : ℕ)
    (stop : Bool) :
    journalCommit tx seq stop dev =
      (if dev.accepted (commitWrites tx seq stop).length = (commitWrites tx seq stop).length
        then .ok () else .error .io,
        dev.storeAll ((commitWrites tx seq stop).take
          (dev.accepted (commitWrites tx seq stop).length))) := by
  rw [journalCommit_eq hok.count, writeAll_eq (commitWrites_valid hjournal hok seq stop)]

/-- The number of accepted writes, against the number of the header write. -/
private theorem accepted_commits (dev : Dev) (tx : Tx) (seq : ℕ) (stop : Bool) :
    2 * tx.length + 2 ≤ dev.accepted (commitWrites tx seq stop).length ↔ dev.commits tx := by
  have hlen : 2 * tx.length + 2 ≤ (commitWrites tx seq stop).length := by
    rw [commitWrites, List.length_append, length_logWrites]
    exact Nat.le_add_right _ _
  unfold Dev.accepted Dev.commits
  split_ifs with hneg
  · exact ⟨fun _ => Or.inl hneg, fun _ => hlen⟩
  · omega

/-- A commit cut off before its header write. -/
theorem settled_of_uncommitted (hjournal : 18 ≤ dev.totalBlocks) (hok : TxOk dev tx)
    (hsettled : Settled dev.blocks target) (hcommits : ¬ dev.commits tx) (seq : ℕ) (stop : Bool) :
    Settled (journalCommit tx seq stop dev).2.blocks target := by
  have hm := mt (accepted_commits dev tx seq stop).mp hcommits
  rw [journalCommit_apply hjournal hok]
  dsimp only
  rw [storeAll_blocks, commitWrites, List.take_append_of_le_length]
  · exact settled_logWrites_take hok.count seq hsettled (Nat.lt_of_not_le hm)
  · rw [length_logWrites]
    exact (Nat.lt_of_not_le hm).le

/-- A commit that got past its header write. -/
theorem restored_of_committed (hjournal : 18 ≤ dev.totalBlocks) (hok : TxOk dev tx)
    (hcommits : dev.commits tx) (seq : ℕ) (stop : Bool) :
    Restored (journalCommit tx seq stop dev).2.blocks tx
      (applyWrites (homeWrites tx) dev.blocks) := by
  have hm := (accepted_commits dev tx seq stop).mpr hcommits
  have hlogged := replayable_logWrites hok.count seq dev.blocks
  rw [journalCommit_apply hjournal hok]
  generalize dev.accepted (commitWrites tx seq stop).length = m at hm
  dsimp only
  rw [storeAll_blocks, commitWrites, List.take_append, length_logWrites,
    List.take_of_length_le (by simpa using hm), applyWrites_append]
  cases stop with
  | true => exact Or.inr (by simpa using hlogged)
  | false =>
      rw [if_neg Bool.false_ne_true]
      exact replay_take_restored hlogged hok.count hok.outside _

/-- A commit that reports success has written its header. -/
theorem commits_of_ok (hjournal : 18 ≤ dev.totalBlocks) (hok : TxOk dev tx) {seq : ℕ}
    {stop : Bool} (h : (journalCommit tx seq stop dev).1 = .ok ()) : dev.commits tx := by
  rw [journalCommit_apply hjournal hok] at h
  dsimp only at h
  split at h
  case isTrue heq =>
      rw [← accepted_commits dev tx seq stop, heq, commitWrites, List.length_append,
        length_logWrites]
      exact Nat.le_add_right _ _
  case isFalse => cases h

/-- A commit that is not cut off: the journal is empty again and the records are home. -/
theorem settled_of_room (hjournal : 18 ≤ dev.totalBlocks) (hok : TxOk dev tx) (seq : ℕ)
    (hroom : dev.failAfter < 0 ∨ (3 * tx.length + 3 : ℕ) ≤ dev.failAfter) :
    journalCommit tx seq false dev = (.ok (), dev.storeAll (commitWrites tx seq false)) ∧
      Settled (dev.storeAll (commitWrites tx seq false)).blocks
        (applyWrites (homeWrites tx) dev.blocks) := by
  have haccepted : dev.accepted (commitWrites tx seq false).length =
      (commitWrites tx seq false).length := by
    rw [length_commitWrites]
    unfold Dev.accepted
    split_ifs <;> omega
  have hcommit := journalCommit_apply hjournal hok seq false
  rw [haccepted, if_pos rfl, List.take_length] at hcommit
  refine ⟨hcommit, ?_⟩
  have hlogged := replayable_logWrites hok.count seq dev.blocks
  have hreplay := (replay_take hlogged hok.count hok.outside (tx.length + 1)).2 (Nat.lt_succ_self _)
  rw [List.take_of_length_le (by simp)] at hreplay
  rw [storeAll_blocks, commitWrites, applyWrites_append]
  exact hreplay

/-- A commit that runs out of accepted writes reports it. -/
theorem journalCommit_error (hjournal : 18 ≤ dev.totalBlocks) (hok : TxOk dev tx) (seq : ℕ)
    (hlow : 0 ≤ dev.failAfter) (hhigh : dev.failAfter < (3 * tx.length + 3 : ℕ)) :
    (journalCommit tx seq false dev).1 = .error .io := by
  rw [journalCommit_apply hjournal hok, length_commitWrites, if_neg]
  unfold Dev.accepted
  split_ifs <;> omega

/-- The device of a later call: the same blocks, and room for `fail` more writes. -/
def Dev.withFailAfter (dev : Dev) (fail : ℤ) : Dev := { dev with failAfter := fail }

@[simp] theorem withFailAfter_blocks (dev : Dev) (fail : ℤ) :
    (dev.withFailAfter fail).blocks = dev.blocks := rfl

@[simp] theorem withFailAfter_failAfter (dev : Dev) (fail : ℤ) :
    (dev.withFailAfter fail).failAfter = fail := rfl

theorem TxOk.of_totalBlocks {dev' : Dev} (hok : TxOk dev tx)
    (htotal : dev'.totalBlocks = dev.totalBlocks) : TxOk dev' tx := by
  refine ⟨hok.count, fun r hr => ?_, hok.outside⟩
  rw [Dev.validLba, htotal]
  exact hok.valid r hr

theorem journalStart_valid (hjournal : 18 ≤ dev.totalBlocks) :
    dev.validLba journalStart :=
  validLba_of_inJournal hjournal inJournal_journalStart

theorem recover_of_settled (hjournal : 18 ≤ dev.totalBlocks)
    (hsettled : Settled dev.blocks target) : journalRecover dev = (.ok (), dev) :=
  journalRecover_of_empty (journalStart_valid hjournal) (hsettled.header ▸ headerEmpty_zero)

private theorem recover_of_replayable (hjournal : 18 ≤ dev.totalBlocks) (hok : TxOk dev tx)
    (h : Replayable dev.blocks tx target) :
    journalRecover dev =
      (if dev.accepted (tx.length + 1) = tx.length + 1 then .ok () else .error .io,
        dev.storeAll ((homeWrites tx ++ [clearWrite]).take (dev.accepted (tx.length + 1)))) := by
  have hvalid : ∀ w ∈ homeWrites tx ++ [clearWrite], dev.validLba w.1 := fun w hw =>
    commitWrites_valid hjournal hok 0 false w
      (List.mem_append_right _ (by simpa using hw))
  have hlen : (homeWrites tx ++ [clearWrite]).length = tx.length + 1 := by simp
  rw [journalRecover_of_committed hjournal hok h.committed, writeAll_eq hvalid, hlen]

/-- Recovery, cut off anywhere, leaves something that recovery can still bring to `target`. -/
theorem recover_restored (hjournal : 18 ≤ dev.totalBlocks) (hok : TxOk dev tx)
    (h : Restored dev.blocks tx target) :
    Restored (journalRecover dev).2.blocks tx target ∧
      (journalRecover dev).2.totalBlocks = dev.totalBlocks := by
  rcases h with hsettled | hreplay
  · rw [recover_of_settled hjournal hsettled]
    exact ⟨Or.inl hsettled, rfl⟩
  · rw [recover_of_replayable hjournal hok hreplay]
    refine ⟨?_, storeAll_totalBlocks _ _⟩
    rw [storeAll_blocks]
    exact replay_take_restored hreplay hok.count hok.outside _

/-- Recovery that reports success has brought the blocks to `target`. -/
theorem settled_of_recover (hjournal : 18 ≤ dev.totalBlocks) (hok : TxOk dev tx)
    (h : Restored dev.blocks tx target) (hresult : (journalRecover dev).1 = .ok ()) :
    Settled (journalRecover dev).2.blocks target := by
  rcases h with hsettled | hreplay
  · rw [recover_of_settled hjournal hsettled]
    exact hsettled
  · rw [recover_of_replayable hjournal hok hreplay] at hresult ⊢
    have hall : dev.accepted (tx.length + 1) = tx.length + 1 := by
      by_contra hcut
      rw [if_neg hcut] at hresult
      cases hresult
    rw [hall, storeAll_blocks]
    exact (replay_take hreplay hok.count hok.outside _).2 (Nat.lt_succ_self _)

/-- Recovery that is not cut off brings the blocks to `target`. -/
theorem recover_settles (hjournal : 18 ≤ dev.totalBlocks) (hok : TxOk dev tx)
    (hfail : dev.failAfter < 0) (h : Restored dev.blocks tx target) :
    (journalRecover dev).1 = .ok () ∧ Settled (journalRecover dev).2.blocks target := by
  have hresult : (journalRecover dev).1 = .ok () := by
    rcases h with hsettled | hreplay
    · rw [recover_of_settled hjournal hsettled]
    · rw [recover_of_replayable hjournal hok hreplay, accepted_of_neg hfail, if_pos rfl]
  exact ⟨hresult, settled_of_recover hjournal hok h hresult⟩

/-! ## Any number of interrupted recoveries -/

/-- The device after recoveries that are cut off one after the other; each element of the list
is the fault injection counter of one of them. -/
def recoverAll (dev : Dev) (cuts : List ℤ) : Dev :=
  cuts.foldl (fun d fail => (journalRecover (d.withFailAfter fail)).2) dev

theorem recoverAll_restored (cuts : List ℤ) (hjournal : 18 ≤ dev.totalBlocks) (hok : TxOk dev tx)
    (h : Restored dev.blocks tx target) :
    Restored (recoverAll dev cuts).blocks tx target ∧
      (recoverAll dev cuts).totalBlocks = dev.totalBlocks := by
  induction cuts generalizing dev with
  | nil => exact ⟨h, rfl⟩
  | cons fail cuts ih =>
      have hok' : TxOk (dev.withFailAfter fail) tx := hok.of_totalBlocks rfl
      have hjournal' : 18 ≤ (dev.withFailAfter fail).totalBlocks := hjournal
      obtain ⟨hnext, htotal⟩ := recover_restored hjournal' hok' h
      have hrest := ih (htotal.symm ▸ hjournal) (hok'.of_totalBlocks htotal) hnext
      exact ⟨hrest.1, hrest.2.trans htotal⟩

/-- **Atomicity.**  On a device with an empty journal, a commit that is cut off after any number of
writes (`dev.failAfter`), followed by recoveries that are cut off as well and then by a recovery
that is not, ends with an empty journal and, outside of it, either with the original blocks or
with all records of `tx` applied in order.  It is the latter if the header write of the commit was
accepted, and only then if the two differ; a commit that reports success had it accepted. -/
theorem journal_atomic (dev : Dev) (tx : Tx) (seq : ℕ) (stop : Bool) (cuts : List ℤ)
    (hjournal : 18 ≤ dev.totalBlocks) (hheader : dev.blocks journalStart = Bytes.zero)
    (hok : TxOk dev tx) :
    let applied := applyWrites (homeWrites tx) dev.blocks
    let commit := journalCommit tx seq stop dev
    let last := journalRecover ((recoverAll commit.2 cuts).withFailAfter (-1))
    last.1 = .ok () ∧ last.2.blocks journalStart = Bytes.zero ∧
      (dev.commits tx → ∀ lba, ¬ inJournal lba → last.2.blocks lba = applied lba) ∧
      (¬ dev.commits tx → ∀ lba, ¬ inJournal lba → last.2.blocks lba = dev.blocks lba) ∧
      ((∃ lba, ¬ inJournal lba ∧ applied lba ≠ dev.blocks lba) →
        ((∀ lba, ¬ inJournal lba → last.2.blocks lba = applied lba) ↔ dev.commits tx)) ∧
      (commit.1 = .ok () → dev.commits tx) := by
  intro applied commit last
  have htotal : commit.2.totalBlocks = dev.totalBlocks := by
    simp only [commit, journalCommit_apply hjournal hok, storeAll_totalBlocks]
  -- whatever the target is, the remaining recoveries bring the blocks there
  have hfinish : ∀ target, Restored commit.2.blocks tx target →
      last.1 = .ok () ∧ Settled last.2.blocks target := by
    intro target hrestored
    have hjournal' : 18 ≤ commit.2.totalBlocks := htotal.symm ▸ hjournal
    have hok' : TxOk commit.2 tx := hok.of_totalBlocks htotal
    obtain ⟨hcuts, hcutsTotal⟩ := recoverAll_restored cuts hjournal' hok' hrestored
    have hjournal'' : 18 ≤ ((recoverAll commit.2 cuts).withFailAfter (-1)).totalBlocks :=
      hcutsTotal.symm ▸ hjournal'
    exact recover_settles hjournal'' (hok'.of_totalBlocks hcutsTotal) (by decide : (-1 : ℤ) < 0)
      hcuts
  have hyes : dev.commits tx → last.1 = .ok () ∧ Settled last.2.blocks applied := fun hcommits =>
    hfinish applied (restored_of_committed hjournal hok hcommits seq stop)
  have hno : ¬ dev.commits tx → last.1 = .ok () ∧ Settled last.2.blocks dev.blocks :=
    fun hcommits =>
    hfinish dev.blocks (Or.inl (settled_of_uncommitted hjournal hok ⟨hheader, fun _ _ => rfl⟩
      hcommits seq stop))
  have hend : last.1 = .ok () ∧ last.2.blocks journalStart = Bytes.zero := by
    by_cases hcommits : dev.commits tx
    · exact ⟨(hyes hcommits).1, (hyes hcommits).2.header⟩
    · exact ⟨(hno hcommits).1, (hno hcommits).2.header⟩
  refine ⟨hend.1, hend.2, fun h => (hyes h).2.home, fun h => (hno h).2.home, ?_,
    commits_of_ok hjournal hok⟩
  rintro ⟨lba, hlba, hdiffer⟩
  refine ⟨fun happlied => ?_, fun h => (hyes h).2.home⟩
  by_contra hcommits
  exact hdiffer ((happlied lba hlba).symm.trans ((hno hcommits).2.home lba hlba))

theorem journal_atomic_one_record :
    (journalRecover ((recoverAll (journalCommit [⟨30, Bytes.zero.setU32 0 7⟩] 2 false
      (devInit.withFailAfter 4)).2 [1, 0]).withFailAfter (-1))).2.blocks 30 =
      Bytes.zero.setU32 0 7 := by
  have hok : TxOk (devInit.withFailAfter 4) [⟨30, Bytes.zero.setU32 0 7⟩] := by
    refine ⟨by decide, ?_, ?_⟩
    · intro r hr
      obtain rfl := List.mem_singleton.mp hr
      exact (by decide : 30 < 128 ∧ 30 < 128)
    · intro r hr
      obtain rfl := List.mem_singleton.mp hr
      exact (by decide : ¬ (1 ≤ 30 ∧ 30 < 1 + 17))
  have hcommits : (devInit.withFailAfter 4).commits [⟨30, Bytes.zero.setU32 0 7⟩] :=
    Or.inr (by decide)
  have hatomic := journal_atomic (devInit.withFailAfter 4) [⟨30, Bytes.zero.setU32 0 7⟩] 2 false
    [1, 0] (by decide) rfl hok
  rw [hatomic.2.2.1 hcommits 30 (by decide : ¬ (1 ≤ 30 ∧ 30 < 1 + 17))]
  simp [homeWrites]

end Mcsos.M16
