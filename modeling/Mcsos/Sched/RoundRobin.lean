import Mathlib.Data.List.Rotate
import Mcsos.Sched.Queue

/-!
# Round robin

The current thread and the queue behind it form one line.  A yield rotates this line by one place,
which is all that is needed for a round: after as many yields as the line is long, it is what it
was, and on the way every thread of the line has been the current one once.
-/

namespace Mcsos.Sched

/-- `k` yields, one after the other. -/
def yields : (k : ℕ) → Scheduler → Scheduler
  | 0, s => s
  | k + 1, s => yields k (schedYield s).2

/-- The threads that `k` yields make the current one, in order. -/
def turns : (k : ℕ) → Scheduler → List UInt64
  | 0, _ => []
  | k + 1, s => (schedYield s).2.current :: turns k (schedYield s).2

/-- The threads that are enqueued in a run; `NULL` is refused. -/
def enqueued : List Op → List UInt64
  | [] => []
  | .enqueue t :: rest => if t = null then enqueued rest else t :: enqueued rest
  | .yield :: rest => enqueued rest
  | .tick :: rest => enqueued rest

variable {s : Scheduler} {x : Tracked} {q rest : List UInt64} {t u : UInt64}

/-! ### Ticks -/

theorem append_ticks : ((s.append t).threads u).ticks = (s.threads u).ticks := by
  unfold Scheduler.append
  by_cases htail : s.readyTail = null
  · simp only [Scheduler.setThread, htail, if_true, Function.update_apply]
    split_ifs <;> simp_all
  · simp only [Scheduler.setThread, htail, if_false, Function.update_apply]
    split_ifs <;> simp_all

theorem pop_ticks : (s.pop.threads u).ticks = (s.threads u).ticks := by
  rw [pop_threads]
  split_ifs <;> rfl

theorem yield_ticks : (((schedYield s).2.threads u).ticks) = (s.threads u).ticks := by
  unfold schedYield
  by_cases hhead : s.readyHead = null
  · rw [if_pos hhead]
  rw [if_neg hhead]
  by_cases hcurrent : s.pop.current = null
  · simp only [hcurrent, ne_eq, not_true_eq_false, if_false, pop_ticks]
  · simp only [hcurrent, ne_eq, not_false_eq_true, if_true, append_ticks, pop_ticks]

theorem enqueue_ticks : (((schedEnqueue t s).2.threads u).ticks) = (s.threads u).ticks := by
  unfold schedEnqueue
  by_cases hnull : t = null
  · rw [if_pos hnull]
  · rw [if_neg hnull]
    exact append_ticks

/-! ### One yield -/

theorem Inv.yield_empty (h : Inv x []) : schedYield x.sched = (.err, x.sched) := by
  have hhead : x.sched.readyHead = null := h.lists.queue
  rw [schedYield, if_pos hhead]

theorem Inv.yield_fields (h : Inv x (t :: rest)) :
    (schedYield x.sched).1 = .ok ∧ (schedYield x.sched).2.current = t ∧
      (schedYield x.sched).2.contextSwitches = x.sched.contextSwitches + 1 := by
  obtain ⟨rfl, hhead, -⟩ := h.lists.queue
  have hcurrent : x.sched.pop.current = x.sched.current := by rw [pop_eq]
  unfold schedYield
  rw [if_neg hhead]
  refine ⟨rfl, rfl, ?_⟩
  simp only [hcurrent, if_pos h.current_ne, ne_eq]
  rw [append_eq, pop_eq]

/-! ### A row of yields -/

/-- The line after `k` yields. -/
theorem Inv.yields (h : Inv x q) (hq : q ≠ []) (k : ℕ) :
    ∃ q', Inv ⟨yields k x.sched, x.given⟩ q' ∧
      (Sched.yields k x.sched).current :: q' = (x.sched.current :: q).rotate k ∧
      (Sched.yields k x.sched).contextSwitches = x.sched.contextSwitches + UInt64.ofNat k := by
  induction k generalizing x q with
  | zero => exact ⟨q, h, (List.rotate_zero _).symm, (UInt64.add_zero _).symm⟩
  | succ k ih =>
      cases q with
      | nil => exact absurd rfl hq
      | cons t rest =>
          obtain ⟨-, hcurrent, hswitches⟩ := h.yield_fields
          have hnext : Inv ⟨(schedYield x.sched).2, x.given⟩ (rest ++ [x.sched.current]) := h.rotate
          obtain ⟨q', hinv, hline, hcount⟩ := ih hnext (by simp)
          refine ⟨q', hinv, ?_, ?_⟩
          · calc (Sched.yields (k + 1) x.sched).current :: q'
                = ((schedYield x.sched).2.current :: (rest ++ [x.sched.current])).rotate k := hline
              _ = (t :: rest ++ [x.sched.current]).rotate k := by rw [hcurrent, List.cons_append]
              _ = (x.sched.current :: t :: rest).rotate (k + 1) :=
                (List.rotate_cons_succ _ _ k).symm
          · calc (Sched.yields (k + 1) x.sched).contextSwitches
                = (schedYield x.sched).2.contextSwitches + UInt64.ofNat k := hcount
              _ = x.sched.contextSwitches + 1 + UInt64.ofNat k := by rw [hswitches]
              _ = x.sched.contextSwitches + UInt64.ofNat (k + 1) := by
                  rw [UInt64.add_assoc, UInt64.add_comm 1, ← UInt64.ofNat_one, ← UInt64.ofNat_add]

/-- The threads take their turns in the order of the queue. -/
theorem Inv.turns (h : Inv x q) {k : ℕ} (hk : k ≤ q.length + 1) (hq : q ≠ []) :
    turns k x.sched = (q ++ [x.sched.current]).take k := by
  induction k generalizing x q with
  | zero => rfl
  | succ k ih =>
      cases q with
      | nil => exact absurd rfl hq
      | cons t rest =>
          obtain ⟨-, hcurrent, -⟩ := h.yield_fields
          have hnext : Inv ⟨(schedYield x.sched).2, x.given⟩ (rest ++ [x.sched.current]) := h.rotate
          have hlength : k ≤ (rest ++ [x.sched.current]).length := by simpa using hk
          have hlater : Sched.turns k (schedYield x.sched).2 =
              ((rest ++ [x.sched.current]) ++ [(schedYield x.sched).2.current]).take k :=
            ih hnext (Nat.le_succ_of_le hlength) (by simp)
          calc Sched.turns (k + 1) x.sched
              = t :: Sched.turns k (schedYield x.sched).2 := by rw [Sched.turns, hcurrent]
            _ = t :: (rest ++ [x.sched.current]).take k := by
                rw [hlater, List.take_append_of_le_length hlength]
            _ = (t :: rest ++ [x.sched.current]).take (k + 1) := rfl

/-! ### Each thread enqueued once -/

/-- A thread that was not given to the scheduler can be enqueued, and so can `NULL`, which is
refused. -/
theorem Inv.fresh (h : Inv x q) (ht : t = null ∨ t ∉ x.given) : ¬ x.sched.Holds t := by
  have hmem : t = x.sched.current ∨ t ∈ q → t ≠ null ∧ t ∈ x.given := by
    intro hline
    refine ⟨?_, (h.given t).mpr hline⟩
    rcases hline with rfl | hin
    · exact h.current_ne
    · exact fun hnull => h.lists.queue.null_notMem (hnull ▸ hin)
  rintro (heq | ⟨l, hl, hin⟩)
  · exact ht.elim (hmem (Or.inl heq)).1 fun hnot => hnot (hmem (Or.inl heq)).2
  · have hin : t ∈ q := h.lists.queue.unique hl ▸ hin
    exact ht.elim (hmem (Or.inr hin)).1 fun hnot => hnot (hmem (Or.inr hin)).2

theorem once_fresh (ops : List Op) (h : Inv x q) (hnodup : (enqueued ops).Nodup)
    (hnew : ∀ t ∈ enqueued ops, t ∉ x.given) : AllSteps Op.step Op.Fresh ops x := by
  induction ops generalizing x q with
  | nil => trivial
  | cons o rest ih =>
      cases o with
      | enqueue t =>
          by_cases hnull : t = null
          · have hfresh : ¬ x.sched.Holds t := h.fresh (Or.inl hnull)
            obtain ⟨q', hnext⟩ := h.enqueue hfresh
            rw [enqueued, if_pos hnull] at hnodup hnew
            refine ⟨hfresh, ih hnext hnodup fun u hu => ?_⟩
            simpa only [Op.step, if_pos hnull] using hnew u hu
          · rw [enqueued, if_neg hnull] at hnodup hnew
            have hfresh : ¬ x.sched.Holds t := h.fresh (Or.inr (hnew t List.mem_cons_self))
            refine ⟨hfresh, ih (h.append hfresh hnull) hnodup.of_cons fun u hu => ?_⟩
            have hut : u ≠ t := fun heq => (List.nodup_cons.mp hnodup).1 (heq ▸ hu)
            simp only [Op.step, if_neg hnull, List.mem_cons, not_or]
            exact ⟨hut, hnew u (List.mem_cons_of_mem _ hu)⟩
      | yield =>
          obtain ⟨q', hnext⟩ := h.yield
          exact ⟨trivial, ih hnext hnodup hnew⟩
      | tick => exact ⟨trivial, ih h.charge hnodup hnew⟩

/-- No thread is given twice. -/
theorem given_nodup_step (o : Op) (h : Inv x q) (hgiven : x.given.Nodup) (hfresh : o.Fresh x) :
    (o.step x).given.Nodup := by
  cases o with
  | enqueue t =>
      by_cases hnull : t = null
      · simpa only [Op.step, if_pos hnull] using hgiven
      · have hnew : t ∉ x.given := fun hin => hfresh <|
          ((h.given t).mp hin).imp_right fun hmem => ⟨q, h.lists.queue, hmem⟩
        simpa only [Op.step, if_neg hnull] using List.nodup_cons.mpr ⟨hnew, hgiven⟩
  | yield => exact hgiven
  | tick => exact hgiven

/-- The line is what was given to the scheduler. -/
theorem Inv.perm (h : Inv x q) (hgiven : x.given.Nodup) : (x.sched.current :: q).Perm x.given := by
  have hline : (x.sched.current :: q).Nodup := List.nodup_cons.mpr ⟨h.current, h.lists.nodup⟩
  refine (List.perm_ext_iff_of_nodup hline hgiven).mpr fun u => ?_
  rw [h.given, List.mem_cons]

/-! ### Round robin -/

/-- What round robin asks of a state with the queue `q`.  The threads of the line are those given to
the scheduler; a yield makes the first thread of the queue the current one and puts the current one
at the end, and fails when there is no other thread; a round of yields gives each thread one turn
and restores the line; only a tick charges a thread, the current one. -/
structure Exact (x : Tracked) (q : List UInt64) : Prop where
  queue : QueueOk x q
  threads : (x.sched.current :: q).Perm x.given
  empty : q = [] → schedYield x.sched = (.err, x.sched)
  yield : ∀ t rest, q = t :: rest → (schedYield x.sched).1 = .ok ∧
    (schedYield x.sched).2.current = t ∧ (schedYield x.sched).2.Queue (rest ++ [x.sched.current])
  round : q ≠ [] → turns (q.length + 1) x.sched = q ++ [x.sched.current] ∧
    (yields (q.length + 1) x.sched).current = x.sched.current ∧
    (yields (q.length + 1) x.sched).Queue q ∧ (yields (q.length + 1) x.sched).contextSwitches =
    x.sched.contextSwitches + UInt64.ofNat (q.length + 1)
  tick : (schedTick x.sched).1 = .ok ∧ ∀ u, ((schedTick x.sched).2.threads u).ticks =
    if u = x.sched.current then (x.sched.threads u).ticks + 1 else (x.sched.threads u).ticks
  uncharged : ∀ t u, ((schedYield x.sched).2.threads u).ticks = (x.sched.threads u).ticks ∧
    ((schedEnqueue t x.sched).2.threads u).ticks = (x.sched.threads u).ticks

theorem Inv.round (h : Inv x q) (hq : q ≠ []) :
    Sched.turns (q.length + 1) x.sched = q ++ [x.sched.current] ∧
      (Sched.yields (q.length + 1) x.sched).current = x.sched.current ∧
      (Sched.yields (q.length + 1) x.sched).Queue q ∧
      (Sched.yields (q.length + 1) x.sched).contextSwitches =
        x.sched.contextSwitches + UInt64.ofNat (q.length + 1) := by
  have hturns : Sched.turns (q.length + 1) x.sched = (q ++ [x.sched.current]).take (q.length + 1) :=
    h.turns (Nat.le_refl _) hq
  obtain ⟨q', hinv, hline, hcount⟩ := h.yields hq (q.length + 1)
  have hround : (x.sched.current :: q).rotate (q.length + 1) = x.sched.current :: q :=
    List.rotate_length (x.sched.current :: q)
  obtain ⟨hcurrent, rfl⟩ := List.cons.inj (hline.trans hround)
  refine ⟨?_, hcurrent, hinv.lists.queue, hcount⟩
  rw [hturns, List.take_of_length_le (by simp)]

theorem Inv.tick_ticks (h : Inv x q) :
    (schedTick x.sched).1 = .ok ∧ ∀ u, ((schedTick x.sched).2.threads u).ticks =
      if u = x.sched.current then (x.sched.threads u).ticks + 1 else (x.sched.threads u).ticks := by
  rw [schedTick, if_neg h.current_ne]
  refine ⟨rfl, fun u => ?_⟩
  rw [setThread_threads]
  split_ifs with heq
  · rw [heq]
  · rfl

theorem Inv.exact (h : Inv x q) (hgiven : x.given.Nodup) : Exact x q where
  queue := h.ok
  threads := h.perm hgiven
  empty := by
    rintro rfl
    exact h.yield_empty
  yield := by
    rintro t rest rfl
    exact ⟨h.yield_fields.1, h.yield_fields.2.1, h.rotate.lists.queue⟩
  round := h.round
  tick := h.tick_ticks
  uncharged := fun t u => ⟨yield_ticks, enqueue_ticks⟩

/-- **Round robin.**  After `mcsos_scheduler_init`, every state of every run in which each thread is
enqueued at most once, and the boot thread never, behaves like a round robin. -/
theorem round_robin_exact (s s₀ : Scheduler) (boot : UInt64)
    (hinit : schedulerInit boot s = (.ok, s₀)) (ops : List Op) (honce : (enqueued ops).Nodup)
    (hboot : boot ∉ enqueued ops) :
    AllStates Op.step (fun x => ∃ q, Exact x q) ops ⟨s₀, [boot]⟩ := by
  have hstart := Inv.start hinit
  have hnew : ∀ t ∈ enqueued ops, t ∉ [boot] :=
    fun t ht hin => hboot (List.mem_singleton.mp hin ▸ ht)
  have hrun := AllSteps.invariant (I := fun x => (∃ q, Inv x q) ∧ x.given.Nodup)
    (fun o x hx hfresh => hx.1.elim fun q hq =>
      ⟨hq.step o hfresh, given_nodup_step o hq hx.2 hfresh⟩)
    ⟨⟨[], hstart⟩, List.nodup_singleton boot⟩ (once_fresh ops hstart honce hnew)
  exact hrun.mono fun x hx => hx.1.imp fun q hq => hq.exact hx.2

/-- Three threads with the boot thread, and a fourth that comes in between. -/
theorem round_robin_exact_four :
    AllStates Op.step (fun x => ∃ q, Exact x q)
      [.enqueue 16, .enqueue 24, .yield, .tick, .enqueue 32, .yield, .yield] ⟨booted, [8]⟩ :=
  round_robin_exact idle booted 8 rfl [.enqueue 16, .enqueue 24, .yield, .tick, .enqueue 32,
    .yield, .yield] (by decide) (by decide)

end Mcsos.Sched
