import Mathlib.Data.List.Perm.Subperm
import Mathlib.Data.List.Range
import Mathlib.Logic.Function.Basic
import Mcsos.Lib.Linked
import Mcsos.Lib.Run

/-!
# The ready queue of the scheduler

The threads that wait for the processor form a list through their own `next` fields, from
`ready_head` to `ready_tail`.  `mcsos_sched_enqueue` links a thread behind the last one whatever its
state is, so a thread that runs or waits already must not be given to it.  `ready_queue_exact` says
that this is all the callers have to see to: as long as they do, the queue stays what it should be
in every run, and the first enqueue of any other thread breaks it.
-/

namespace Mcsos.Sched

/-- `mcsos_thread_state_t` -/
inductive ThreadState where
  | new
  | ready
  | running
  | blocked
  | zombie
  deriving DecidableEq, Repr

/-- `mcsos_thread_t`, without what only the context switch reads. -/
structure Thread where
  id : UInt64
  state : ThreadState
  next : UInt64
  ticks : UInt64

/-- `NULL` -/
def null : UInt64 := 0

/-- `mcsos_scheduler_t`, with the threads that its pointers point to. -/
structure Scheduler where
  current : UInt64
  readyHead : UInt64
  readyTail : UInt64
  runnableCount : UInt64
  nextId : UInt64
  contextSwitches : UInt64
  threads : UInt64 → Thread

/-- `MCSOS_SCHED_OK` and `MCSOS_SCHED_ERR` -/
inductive Status where
  | ok
  | err
  deriving DecidableEq, Repr

/-- An assignment to fields of the thread at `t`. -/
def Scheduler.setThread (t : UInt64) (f : Thread → Thread) (s : Scheduler) : Scheduler :=
  { s with threads := Function.update s.threads t (f (s.threads t)) }

/-- `mcsos_scheduler_init` -/
def schedulerInit (boot : UInt64) (s : Scheduler) : Status × Scheduler :=
  if boot = null then (.err, s)
  else
    let s := { s with
      current := boot, readyHead := null, readyTail := null, runnableCount := 0, nextId := 0,
      contextSwitches := 0 }
    let s := s.setThread boot fun th => { th with state := .running, id := s.nextId }
    (.ok, { s with nextId := s.nextId + 1 })

/-- The end of the queue, as `mcsos_sched_enqueue` and `mcsos_sched_yield` link a thread to it. -/
def Scheduler.append (t : UInt64) (s : Scheduler) : Scheduler :=
  let s := s.setThread t fun th => { th with state := .ready, next := null }
  if s.readyTail = null then { s with readyHead := t, readyTail := t }
  else { s.setThread s.readyTail fun th => { th with next := t } with readyTail := t }

/-- `mcsos_sched_enqueue` -/
def schedEnqueue (t : UInt64) (s : Scheduler) : Status × Scheduler :=
  if t = null then (.err, s)
  else
    let s := s.append t
    (.ok, { s with runnableCount := s.runnableCount + 1 })

/-- `mcsos_sched_tick` -/
def schedTick (s : Scheduler) : Status × Scheduler :=
  if s.current = null then (.err, s)
  else (.ok, s.setThread s.current fun th => { th with ticks := th.ticks + 1 })

/-- The first thread is taken out of the queue and set running. -/
def Scheduler.pop (s : Scheduler) : Scheduler :=
  let next := s.readyHead
  let s := { s with readyHead := (s.threads next).next }
  let s := if s.readyHead = null then { s with readyTail := null } else s
  s.setThread next fun th => { th with state := .running }

/-- `mcsos_sched_yield` -/
def schedYield (s : Scheduler) : Status × Scheduler :=
  if s.readyHead = null then (.err, s)
  else
    let next := s.readyHead
    let s := s.pop
    let s := if s.current ≠ null then s.append s.current else s
    (.ok, { s with current := next, contextSwitches := s.contextSwitches + 1 })

/-- The loop of `mcsos_sched_validate` and what follows it. -/
def validateFrom (s : Scheduler) : ℕ → UInt64 → UInt64 → Option Status
  | 0, _, _ => none
  | fuel + 1, cur, count =>
      if cur = null then some (if count ≠ s.runnableCount then .err else .ok)
      else if (s.threads cur).state ≠ .ready then some .err
      else validateFrom s fuel (s.threads cur).next (count + 1)

/-- `mcsos_sched_validate`, which looks at `fuel` nodes at most. -/
def schedValidate (fuel : ℕ) (s : Scheduler) : Option Status :=
  validateFrom s fuel s.readyHead 0

/-! ## What the queue should be -/

/-- The nodes met from `ready_head` on are those of `q`, up to a `NULL`. -/
def Scheduler.Queue (s : Scheduler) (q : List UInt64) : Prop :=
  Linked (fun t => (s.threads t).next) null s.readyHead q

/-- A call to the scheduler. -/
inductive Op where
  | enqueue (t : UInt64)
  | yield
  | tick

/-- A scheduler and the threads it was given since `mcsos_scheduler_init`, which the code does not
record. -/
structure Tracked where
  sched : Scheduler
  given : List UInt64

/-- One call. -/
def Op.step : Op → Tracked → Tracked
  | .enqueue t, x => ⟨(schedEnqueue t x.sched).2, if t = null then x.given else t :: x.given⟩
  | .yield, x => ⟨(schedYield x.sched).2, x.given⟩
  | .tick, x => ⟨(schedTick x.sched).2, x.given⟩

/-- The queue is the list `q`, which ends, has no thread twice and does not have the current one;
`ready_tail` and `runnable_count` are right, one of the given threads runs, and
`mcsos_sched_validate` returns `MCSOS_SCHED_OK`. -/
structure QueueOk (x : Tracked) (q : List UInt64) : Prop where
  queue : x.sched.Queue q
  nodup : q.Nodup
  current : x.sched.current ∉ q
  tail : x.sched.readyTail = q.getLastD null
  count : x.sched.runnableCount.toNat = q.length
  running : ∃! t, t ∈ x.given ∧ (x.sched.threads t).state = .running
  validate : ∃ fuel, schedValidate fuel x.sched = some .ok

/-- The thread runs, or waits in the queue. -/
def Scheduler.Holds (s : Scheduler) (t : UInt64) : Prop :=
  t = s.current ∨ ∃ q, s.Queue q ∧ t ∈ q

/-- The call does not enqueue a thread that runs or waits already. -/
def Op.Fresh : Op → Tracked → Prop
  | .enqueue t, x => ¬ x.sched.Holds t
  | .yield, _ => True
  | .tick, _ => True

/-- If the call enqueues a thread that runs or waits already, it is refused. -/
def Op.Refused : Op → Tracked → Prop
  | .enqueue t, x => x.sched.Holds t → schedEnqueue t x.sched = (.err, x.sched)
  | .yield, _ => True
  | .tick, _ => True

variable {s : Scheduler} {x : Tracked} {q : List UInt64} {t u : UInt64}

theorem not_holds (h : s.Queue q) (hcur : t ≠ s.current) (hmem : t ∉ q) : ¬ s.Holds t := by
  intro hholds
  rcases hholds with heq | ⟨l, hl, hin⟩
  · exact hcur heq
  · exact hmem (h.unique hl ▸ hin)

/-! ## Threads and their fields -/

theorem setThread_threads (f : Thread → Thread) :
    (s.setThread t f).threads u = if u = t then f (s.threads t) else s.threads u :=
  Function.update_apply _ _ _ _

theorem append_eq : s.append t =
    { s with
      readyHead := if s.readyTail = null then t else s.readyHead
      readyTail := t
      threads := (s.append t).threads } := by
  unfold Scheduler.append
  by_cases htail : s.readyTail = null
  · simp [Scheduler.setThread, htail]
  · simp [Scheduler.setThread, htail]

theorem append_state : ((s.append t).threads u).state =
    if u = t then .ready else (s.threads u).state := by
  unfold Scheduler.append
  by_cases htail : s.readyTail = null
  · simp only [Scheduler.setThread, htail, if_true, Function.update_apply]
    split_ifs <;> rfl
  · simp only [Scheduler.setThread, htail, if_false, Function.update_apply]
    split_ifs <;> simp_all

theorem append_next : ((s.append t).threads u).next =
    if u = s.readyTail ∧ s.readyTail ≠ null then t
    else if u = t then null else (s.threads u).next := by
  unfold Scheduler.append
  by_cases htail : s.readyTail = null
  · simp only [Scheduler.setThread, htail, if_true, Function.update_apply]
    split_ifs <;> simp_all
  · simp only [Scheduler.setThread, htail, if_false, Function.update_apply]
    split_ifs <;> simp_all

theorem pop_eq : s.pop =
    { s with
      readyHead := (s.threads s.readyHead).next
      readyTail := if (s.threads s.readyHead).next = null then null else s.readyTail
      threads := s.pop.threads } := by
  unfold Scheduler.pop
  by_cases hlast : (s.threads s.readyHead).next = null
  · simp [Scheduler.setThread, hlast]
  · simp [Scheduler.setThread, hlast]

theorem pop_threads : s.pop.threads u =
    if u = s.readyHead then { s.threads u with state := .running } else s.threads u := by
  unfold Scheduler.pop
  rw [setThread_threads]
  split_ifs <;> simp_all

theorem pop_next : (s.pop.threads u).next = (s.threads u).next := by
  rw [pop_threads]
  split_ifs <;> rfl

theorem pop_state : (s.pop.threads u).state =
    if u = s.readyHead then .running else (s.threads u).state := by
  rw [pop_threads]
  split_ifs <;> rfl

/-! ## The list -/

/-- The list from `ready_head` to `ready_tail`. -/
structure Scheduler.Lists (s : Scheduler) (q : List UInt64) : Prop where
  queue : s.Queue q
  nodup : q.Nodup
  tail : s.readyTail = q.getLastD null

theorem Scheduler.Lists.readyTail_eq_null_iff (h : s.Lists q) : s.readyTail = null ↔ q = [] := by
  rw [h.tail]
  rcases List.eq_nil_or_concat q with rfl | ⟨l, e, rfl⟩
  · simp
  · have he : e ≠ null := fun he => h.queue.null_notMem (by simp [he])
    simp [he]

theorem Scheduler.Lists.append (h : s.Lists q) (ht : t ∉ q) (hne : t ≠ null) :
    (s.append t).Lists (q ++ [t]) := by
  have hfields := append_eq (s := s) (t := t)
  refine ⟨?_, ?_, ?_⟩
  · unfold Scheduler.Queue
    rw [hfields]
    rcases List.eq_nil_or_concat q with rfl | ⟨l, e, rfl⟩
    · have htail := h.readyTail_eq_null_iff.mpr rfl
      simp [htail, Linked, hne, append_next]
    · have he : s.readyTail = e := by simpa using h.tail
      have hnull : e ≠ null := fun he => h.queue.null_notMem (by simp [he])
      have hlast : e ∉ l := by
        have := h.nodup
        simp only [List.concat_eq_append, List.nodup_append, List.mem_singleton, ne_eq,
          forall_eq] at this
        exact fun hmem => this.2.2 e hmem rfl
      rw [List.concat_eq_append] at ht ⊢
      simp only [he, hnull, if_false]
      have hqueue : Linked (fun t => (s.threads t).next) null s.readyHead (l ++ [e]) := by
        simpa [Scheduler.Queue] using h.queue
      refine hqueue.snoc ?_ ?_ ?_ hne
      · intro u hu
        have hue : u ≠ e := fun heq => hlast (heq ▸ hu)
        have hut : u ≠ t := fun heq => ht (by simp [← heq, hu])
        simp [append_next, he, hue, hut]
      · simp [append_next, he, hnull]
      · have hte : t ≠ e := fun heq => ht (by simp [heq])
        simp [append_next, he, hte]
  · exact h.nodup.append (List.nodup_singleton t) (by simpa using ht)
  · rw [hfields, List.getLastD_concat]

theorem Scheduler.Lists.pop (h : s.Lists q) (hhead : s.readyHead ≠ null) :
    ∃ rest, q = s.readyHead :: rest ∧ s.pop.Lists rest := by
  cases q with
  | nil => exact absurd h.queue hhead
  | cons t rest =>
    obtain ⟨rfl, hne, hrest⟩ := h.queue
    refine ⟨rest, rfl, ?_, h.nodup.of_cons, ?_⟩
    · unfold Scheduler.Queue
      rw [pop_eq]
      exact hrest.congr fun u _ => pop_next
    · rw [pop_eq]
      rcases List.eq_nil_or_concat rest with rfl | ⟨l, e, rfl⟩
      · exact if_pos hrest
      · have hsome : (s.threads s.readyHead).next ≠ null := fun hnull => by
          simpa using hrest.eq_null_iff.mp hnull
        rw [if_neg hsome, h.tail, List.concat_eq_append, List.getLastD_cons, List.getLastD_concat,
          List.getLastD_concat]

/-- The loop over a list of threads that are all ready. -/
theorem validateFrom_eq {p count : UInt64}
    (h : Linked (fun t => (s.threads t).next) null p q)
    (hready : ∀ t ∈ q, (s.threads t).state = .ready)
    (hcount : count + UInt64.ofNat q.length = s.runnableCount) :
    validateFrom s (q.length + 1) p count = some .ok := by
  induction q generalizing p count with
  | nil =>
    have hp : p = null := h
    have hdone : count = s.runnableCount := by simpa using hcount
    simp [validateFrom, hp, hdone]
  | cons t q ih =>
    obtain ⟨rfl, hne, hrest⟩ := h
    have hstate := hready p List.mem_cons_self
    rw [List.length_cons, validateFrom, if_neg hne, if_neg (not_not.mpr hstate)]
    refine ih hrest (fun u hu => hready u (List.mem_cons_of_mem _ hu)) ?_
    rw [← hcount, List.length_cons, UInt64.ofNat_add, UInt64.add_assoc]
    congr 1
    exact UInt64.add_comm _ _

/-- There are fewer threads than addresses. -/
theorem length_lt (h : q.Nodup) (hnull : null ∉ q) : q.length < UInt64.size := by
  have hnodup : ((null :: q).map UInt64.toNat).Nodup :=
    (List.nodup_cons.mpr ⟨hnull, h⟩).map fun a b hab => UInt64.toNat_inj.mp hab
  have hsub : (null :: q).map UInt64.toNat ⊆ List.range UInt64.size := by
    intro a ha
    obtain ⟨b, -, rfl⟩ := List.mem_map.mp ha
    exact List.mem_range.mpr b.toNat_lt
  have hle := (List.Nodup.subperm hnodup hsub).length_le
  rw [List.length_map, List.length_cons, List.length_range] at hle
  omega

/-! ## The invariant -/

/-- What holds between two calls as long as no thread is enqueued twice. -/
structure Inv (x : Tracked) (q : List UInt64) : Prop where
  lists : x.sched.Lists q
  current : x.sched.current ∉ q
  current_ne : x.sched.current ≠ null
  count : x.sched.runnableCount = UInt64.ofNat q.length
  ready : ∀ t ∈ q, (x.sched.threads t).state = .ready
  running : (x.sched.threads x.sched.current).state = .running
  given : ∀ t, t ∈ x.given ↔ t = x.sched.current ∨ t ∈ q

theorem Inv.ok (h : Inv x q) : QueueOk x q where
  queue := h.lists.queue
  nodup := h.lists.nodup
  current := h.current
  tail := h.lists.tail
  count := by
    rw [h.count]
    exact UInt64.toNat_ofNat_of_lt' (length_lt h.lists.nodup h.lists.queue.null_notMem)
  running := by
    refine ⟨x.sched.current, ⟨(h.given _).mpr (Or.inl rfl), h.running⟩, ?_⟩
    intro t ht
    rcases (h.given t).mp ht.1 with rfl | hmem
    · rfl
    · exact absurd ((h.ready t hmem).symm.trans ht.2) (by decide)
  validate := by
    refine ⟨q.length + 1, validateFrom_eq h.lists.queue h.ready ?_⟩
    rw [h.count, UInt64.zero_add]

theorem Inv.append (h : Inv x q) (hfresh : ¬ x.sched.Holds t) (hnull : t ≠ null) :
    Inv ((Op.enqueue t).step x) (q ++ [t]) := by
  have hcur : t ≠ x.sched.current := fun heq => hfresh (Or.inl heq)
  have hmem : t ∉ q := fun hmem => hfresh (Or.inr ⟨q, h.lists.queue, hmem⟩)
  have hlists := h.lists.append hmem hnull
  simp only [Op.step, schedEnqueue, if_neg hnull]
  have hfields := append_eq (s := x.sched) (t := t)
  have hcurrent : (x.sched.append t).current = x.sched.current := by rw [hfields]
  have hcount : (x.sched.append t).runnableCount = x.sched.runnableCount := by rw [hfields]
  constructor
  case lists => exact ⟨hlists.queue, hlists.nodup, hlists.tail⟩
  case current =>
    show (x.sched.append t).current ∉ q ++ [t]
    rw [hcurrent]
    simpa [hcur.symm] using h.current
  case current_ne => exact hcurrent ▸ h.current_ne
  case count =>
    show (x.sched.append t).runnableCount + 1 = _
    rw [hcount, h.count, List.length_append, List.length_singleton, UInt64.ofNat_add]
    rfl
  case ready =>
    intro u hu
    show ((x.sched.append t).threads u).state = .ready
    rw [append_state]
    split_ifs with hut
    · rfl
    · exact h.ready u ((List.mem_append.mp hu).resolve_right (by simpa using hut))
  case running =>
    show ((x.sched.append t).threads (x.sched.append t).current).state = .running
    rw [hcurrent, append_state, if_neg hcur.symm]
    exact h.running
  case given =>
    intro u
    show u ∈ t :: x.given ↔ u = (x.sched.append t).current ∨ u ∈ q ++ [t]
    rw [hcurrent, List.mem_append, List.mem_singleton, List.mem_cons, h.given]
    tauto

theorem Inv.enqueue (h : Inv x q) (hfresh : ¬ x.sched.Holds t) :
    ∃ q, Inv ((Op.enqueue t).step x) q := by
  by_cases hnull : t = null
  · refine ⟨q, ?_⟩
    simp only [Op.step, schedEnqueue, if_pos hnull]
    exact h
  · exact ⟨q ++ [t], h.append hfresh hnull⟩

/-- The current thread goes to the end, the first one becomes the current one. -/
theorem Inv.rotate {rest : List UInt64} (h : Inv x (t :: rest)) :
    Inv (Op.yield.step x) (rest ++ [x.sched.current]) := by
  obtain ⟨rfl, hhead, -⟩ := h.lists.queue
  obtain ⟨rest', heq, hpop⟩ := h.lists.pop hhead
  obtain rfl : rest = rest' := (List.cons.inj heq).2
  have hcurrent : x.sched.pop.current = x.sched.current := by rw [pop_eq]
  have hne : x.sched.current ≠ x.sched.readyHead := fun heq => h.current (heq ▸ List.mem_cons_self)
  have hrest : x.sched.current ∉ rest := fun hmem => h.current (List.mem_cons_of_mem _ hmem)
  have hhead_rest : x.sched.readyHead ∉ rest := (List.nodup_cons.mp h.lists.nodup).1
  have hlists := hpop.append hrest h.current_ne
  have hstate : ∀ u, ((x.sched.pop.append x.sched.current).threads u).state =
      if u = x.sched.current then .ready
      else if u = x.sched.readyHead then .running else (x.sched.threads u).state := fun u => by
    rw [append_state, pop_state]
  simp only [Op.step, schedYield, if_neg hhead, hcurrent, if_pos h.current_ne, ne_eq]
  constructor
  case lists => exact ⟨hlists.queue, hlists.nodup, hlists.tail⟩
  case current => simpa [hne.symm] using hhead_rest
  case current_ne => exact hhead
  case count =>
    show (x.sched.pop.append x.sched.current).runnableCount = _
    rw [append_eq, pop_eq]
    simpa using h.count
  case ready =>
    intro u hu
    show ((x.sched.pop.append x.sched.current).threads u).state = .ready
    rw [hstate]
    rcases List.mem_append.mp hu with hu | hu
    · have huc : u ≠ x.sched.current := fun heq => hrest (heq ▸ hu)
      have huh : u ≠ x.sched.readyHead := fun heq => hhead_rest (heq ▸ hu)
      rw [if_neg huc, if_neg huh]
      exact h.ready u (List.mem_cons_of_mem _ hu)
    · rw [if_pos (List.mem_singleton.mp hu)]
  case running =>
    show ((x.sched.pop.append x.sched.current).threads x.sched.readyHead).state = .running
    rw [hstate, if_neg hne.symm, if_pos rfl]
  case given =>
    intro u
    show u ∈ x.given ↔ u = x.sched.readyHead ∨ u ∈ rest ++ [x.sched.current]
    rw [h.given, List.mem_append, List.mem_singleton, List.mem_cons]
    tauto

theorem Inv.yield (h : Inv x q) : ∃ q, Inv (Op.yield.step x) q := by
  cases q with
  | nil =>
    have hhead : x.sched.readyHead = null := h.lists.queue
    refine ⟨[], ?_⟩
    simp only [Op.step, schedYield, if_pos hhead]
    exact h
  | cons t rest => exact ⟨_, h.rotate⟩

theorem Inv.charge (h : Inv x q) : Inv (Op.tick.step x) q := by
  have hnext : ∀ u, (((x.sched.setThread x.sched.current fun th =>
      { th with ticks := th.ticks + 1 }).threads u).next) = (x.sched.threads u).next := fun u => by
    rw [setThread_threads]
    split_ifs with heq <;> simp [heq]
  have hstate : ∀ u, (((x.sched.setThread x.sched.current fun th =>
      { th with ticks := th.ticks + 1 }).threads u).state) = (x.sched.threads u).state :=
        fun u => by
    rw [setThread_threads]
    split_ifs with heq <;> simp [heq]
  simp only [Op.step, schedTick, if_neg h.current_ne]
  constructor
  case lists =>
    refine ⟨?_, h.lists.nodup, h.lists.tail⟩
    exact Linked.congr h.lists.queue fun u _ => hnext u
  case current => exact h.current
  case current_ne => exact h.current_ne
  case count => exact h.count
  case ready => exact fun u hu => (hstate u).trans (h.ready u hu)
  case running => exact (hstate _).trans h.running
  case given => exact h.given

theorem Inv.tick (h : Inv x q) : ∃ q, Inv (Op.tick.step x) q := ⟨q, h.charge⟩

theorem Inv.step (h : Inv x q) (o : Op) (hfresh : o.Fresh x) : ∃ q, Inv (o.step x) q := by
  cases o with
  | enqueue t => exact h.enqueue hfresh
  | yield => exact h.yield
  | tick => exact h.tick

theorem Inv.start {boot : UInt64} {s₀ : Scheduler} (hinit : schedulerInit boot s = (.ok, s₀)) :
    Inv ⟨s₀, [boot]⟩ [] := by
  unfold schedulerInit at hinit
  by_cases hboot : boot = null
  · simp [hboot] at hinit
  · simp only [if_neg hboot, Prod.mk.injEq, true_and] at hinit
    subst hinit
    constructor
    case lists => exact ⟨rfl, List.nodup_nil, rfl⟩
    case current => exact List.not_mem_nil
    case current_ne => exact hboot
    case count => rfl
    case ready => exact fun t ht => absurd ht List.not_mem_nil
    case running => simp [Scheduler.setThread]
    case given => simp [Scheduler.setThread]

/-! ## A thread enqueued twice -/

theorem current_ne_step (o : Op) (hcur : x.sched.current ≠ null) :
    (o.step x).sched.current ≠ null := by
  cases o with
  | enqueue t =>
    simp only [Op.step, schedEnqueue]
    split_ifs with hnull
    · exact hcur
    · show (x.sched.append t).current ≠ null
      rwa [append_eq]
  | yield =>
    simp only [Op.step, schedYield]
    by_cases hhead : x.sched.readyHead = null
    · rwa [if_pos hhead]
    · rw [if_neg hhead]
      exact hhead
  | tick =>
    simp only [Op.step, schedTick, if_neg hcur]
    exact hcur

/-- No list is right after a thread of the queue, or the current one, was enqueued: the tail is the
thread itself, and the list cannot have grown. -/
theorem QueueOk.fresh {q' : List UInt64} (h : QueueOk x q) (hcur : x.sched.current ≠ null)
    (h' : QueueOk ((Op.enqueue t).step x) q') : (Op.enqueue t).Fresh x := by
  have hlists : x.sched.Lists q := ⟨h.queue, h.nodup, h.tail⟩
  by_cases hnull : t = null
  · -- refused
    rintro (heq | ⟨l, hl, hmem⟩)
    · exact hcur (heq ▸ hnull)
    · exact hl.null_notMem (hnull ▸ hmem)
  · simp only [Op.step, schedEnqueue, if_neg hnull] at h'
    have htail : q'.getLastD null = t := by
      rw [← h'.tail, append_eq]
    have hmem' : t ∈ q' := by
      rcases List.eq_nil_or_concat q' with rfl | ⟨l, e, rfl⟩
      · exact absurd htail.symm hnull
      · rw [List.concat_eq_append, List.getLastD_concat] at htail
        simp [htail]
    have hcurrent : x.sched.current ∉ q' := by
      have := h'.current
      rwa [append_eq] at this
    rintro (heq | ⟨l, hl, hmem⟩)
    · exact hcurrent (heq ▸ hmem')
    · have hmem : t ∈ q := h.queue.unique hl ▸ hmem
      have hsome : x.sched.readyTail ≠ null := fun htail =>
        List.ne_nil_of_mem hmem (hlists.readyTail_eq_null_iff.mp htail)
      -- the pointers of the queue's threads do not leave the queue
      have hsub : ∀ u ∈ q', u ∈ q := by
        refine Linked.subset h'.queue (fun hhead => ?_) fun u hu hnext => ?_
        · have heq : (x.sched.append t).readyHead = x.sched.readyHead := by
            rw [append_eq]
            exact if_neg hsome
          rw [show Scheduler.readyHead _ = _ from heq] at hhead ⊢
          exact h.queue.head_mem hhead
        · have heq := append_next (s := x.sched) (t := t) (u := u)
          rw [show Thread.next _ = _ from heq] at hnext ⊢
          split_ifs at hnext ⊢
          · exact hmem
          · exact absurd rfl hnext
          · exact h.queue.next_mem hu hnext
      have hle : q'.length ≤ q.length := (h'.nodup.subperm hsub).length_le
      have hpos : 0 < q'.length := List.length_pos_of_mem hmem'
      have hcount := h'.count
      rw [append_eq, UInt64.toNat_add, UInt64.toNat_one, h.count] at hcount
      have hlt := h.count ▸ x.sched.runnableCount.toNat_lt
      omega

/-- **The ready queue.**  After `mcsos_scheduler_init`, in every run of enqueues, yields and ticks:
the queue is right in every state and every enqueue that would break it is refused, exactly when no
call enqueues the thread that runs or one that waits already. -/
theorem ready_queue_exact (s s₀ : Scheduler) (boot : UInt64)
    (hinit : schedulerInit boot s = (.ok, s₀)) (ops : List Op) :
    AllStates Op.step (fun x => ∃ q, QueueOk x q) ops ⟨s₀, [boot]⟩ ∧
        AllSteps Op.step Op.Refused ops ⟨s₀, [boot]⟩ ↔
      AllSteps Op.step Op.Fresh ops ⟨s₀, [boot]⟩ := by
  have hstart := Inv.start hinit
  constructor
  · intro h
    refine AllStates.steps (I := fun x : Tracked => x.sched.current ≠ null) ?_ ?_
      hstart.current_ne h.1
    · intro o x hcur hx hx'
      obtain ⟨q, hq⟩ := hx
      obtain ⟨q', hq'⟩ := hx'
      cases o with
      | enqueue t => exact hq.fresh hcur hq'
      | yield => trivial
      | tick => trivial
    · intro o x hcur _
      exact current_ne_step o hcur
  · intro h
    have hrun := AllSteps.invariant (I := fun x => ∃ q, Inv x q)
      (fun o x hx hfresh => hx.elim fun q hq => hq.step o hfresh) ⟨[], hstart⟩ h
    refine ⟨hrun.mono fun x hx => hx.imp fun q hq => hq.ok, h.mono fun o x hfresh => ?_⟩
    cases o with
    | enqueue t => exact fun hholds => absurd hholds hfresh
    | yield => trivial
    | tick => trivial

/-- A scheduler before `mcsos_scheduler_init`, with threads that are all new. -/
def idle : Scheduler := ⟨null, null, null, 0, 0, 0, fun _ => ⟨0, .new, null, 0⟩⟩

/-- `idle` after `mcsos_scheduler_init`. -/
def booted : Scheduler := (schedulerInit 8 idle).2

/-- Two threads take turns with the first one. -/
theorem ready_queue_exact_round :
    AllStates Op.step (fun x => ∃ q, QueueOk x q)
      [.enqueue 16, .enqueue 24, .yield, .tick, .yield] ⟨booted, [8]⟩ := by
  have hfirst : ¬ booted.Holds 16 := not_holds (q := []) rfl (by decide) List.not_mem_nil
  have hsecond : ¬ (schedEnqueue 16 booted).2.Holds 24 :=
    not_holds (q := [16]) ⟨rfl, by decide, rfl⟩ (by decide) (by decide)
  have hfresh : AllSteps Op.step Op.Fresh [.enqueue 16, .enqueue 24, .yield, .tick, .yield]
      ⟨booted, [8]⟩ := ⟨hfirst, hsecond, trivial, trivial, trivial, trivial⟩
  exact ((ready_queue_exact idle booted 8 rfl _).mpr hfresh).1

/-- A thread whose successor is itself is never left. -/
theorem validateFrom_loop (hnext : (s.threads t).next = t) (hready : (s.threads t).state = .ready)
    (hne : t ≠ null) : ∀ fuel count, validateFrom s fuel t count = none := by
  intro fuel
  induction fuel with
  | zero => exact fun _ => rfl
  | succ fuel ih =>
    intro count
    rw [validateFrom, if_neg hne, if_neg (not_not.mpr hready), hnext]
    exact ih _

/-- A thread is enqueued twice: it becomes its own successor, and `mcsos_sched_validate` does not
return. -/
theorem enqueue_twice_loops :
    schedulerInit 8 idle = (.ok, booted) ∧
    (schedEnqueue 16 (schedEnqueue 16 booted).2).1 = .ok ∧
    (∀ fuel, schedValidate fuel (schedEnqueue 16 (schedEnqueue 16 booted).2).2 = none) ∧
    ¬ (AllStates Op.step (fun x => ∃ q, QueueOk x q) [.enqueue 16, .enqueue 16] ⟨booted, [8]⟩ ∧
      AllSteps Op.step Op.Refused [.enqueue 16, .enqueue 16] ⟨booted, [8]⟩) := by
  have hloop : ∀ fuel, schedValidate fuel (schedEnqueue 16 (schedEnqueue 16 booted).2).2 = none :=
    fun fuel => validateFrom_loop (t := 16) (by decide) (by decide) (by decide) fuel 0
  refine ⟨rfl, rfl, hloop, fun h => ?_⟩
  obtain ⟨q, hq⟩ := h.1.last
  obtain ⟨fuel, hfuel⟩ := hq.validate
  exact Option.some_ne_none _ (hfuel.symm.trans (hloop fuel))

end Mcsos.Sched
