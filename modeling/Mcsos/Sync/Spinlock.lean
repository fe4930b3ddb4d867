import Mathlib.Algebra.BigOperators.Group.Finset.Basic
import Mathlib.Data.Nat.Cast.Basic
import Mcsos.Lib.Run

/-!
# The spinlock

`mcs_spin_lock` exchanges `locked` with 1 until the old value is 0, and between two exchanges reads
it until it looks free.  `mcs_spin_unlock` stores 0.  The threads here are the ones of the test:
each of them takes the lock a number of times and adds one to a common counter under it, by a load
and a store.

Any number of threads take turns, one access at a time.  As long as a thread is behind its exchange
the lock is taken, so that no other one gets there, and the value it has loaded is still the one of
the counter when it stores.  What the reads between the exchanges return does not matter: they may
return anything.
-/

namespace Mcsos.Sync

/-- `mcs_spinlock_t`, without its class and its name. -/
structure Spinlock where
  locked : UInt32

/-- `mcs_spin_init` -/
def spinInit : Spinlock := ⟨0⟩

/-- `mcs_spin_try_lock`: the old value decides, and `locked` is 1 in any case. -/
def spinTryLock (lock : Spinlock) : Bool × Spinlock := (lock.locked == 0, ⟨1⟩)

/-- `mcs_spin_unlock` -/
def spinUnlock (_lock : Spinlock) : Spinlock := ⟨0⟩

/-- `mcs_spin_is_locked` -/
def spinIsLocked (lock : Spinlock) : Bool := lock.locked != 0

/-- The access that a thread of the test makes next. -/
inductive Place (α : Type) where
  /-- The exchange in `mcs_spin_lock`. -/
  | exchange
  /-- The load of `locked` after an exchange that failed. -/
  | relax
  /-- The load of the counter. -/
  | load
  /-- The store of the counter, one above the value that was loaded. -/
  | store (loaded : α)
  /-- The store in `mcs_spin_unlock`. -/
  | unlock
  /-- None: the loop has ended. -/
  | done

/-- Threads `τ` on one lock and one counter, with the iterations each has left, the current one
included. -/
structure Workers (τ α : Type) where
  lock : Spinlock
  counter : α
  place : τ → Place α
  left : τ → ℕ

variable {τ α : Type}

/-- The test of the loop of `worker`. -/
def nextIteration (left : ℕ) : Place α := if left = 0 then .done else .exchange

/-- All threads are about to enter the loop. -/
def Workers.init [AddMonoidWithOne α] (iterations : τ → ℕ) : Workers τ α :=
  ⟨spinInit, 0, fun t => nextIteration (iterations t), iterations⟩

/-- Thread `t` makes its next access.  If this is the load of `locked`, then it returns `seen`. -/
def Workers.step [DecidableEq τ] [AddMonoidWithOne α] (turn : τ × UInt32) (s : Workers τ α) :
    Workers τ α :=
  let t := turn.1
  match s.place t with
  | .exchange =>
      match spinTryLock s.lock with
      | (true, lock) => { s with lock := lock, place := Function.update s.place t .load }
      | (false, lock) => { s with lock := lock, place := Function.update s.place t .relax }
  | .relax =>
      if turn.2 ≠ 0 then s else { s with place := Function.update s.place t .exchange }
  | .load => { s with place := Function.update s.place t (.store s.counter) }
  | .store loaded =>
      { s with counter := loaded + 1, place := Function.update s.place t .unlock }
  | .unlock =>
      { s with
        lock := spinUnlock s.lock
        left := Function.update s.left t (s.left t - 1)
        place := Function.update s.place t (nextIteration (s.left t - 1)) }
  | .done => s

/-- Between the exchange that took the lock and the store that gives it back. -/
def Place.Inside : Place α → Prop
  | .load => True
  | .store _ => True
  | .unlock => True
  | .exchange => False
  | .relax => False
  | .done => False

/-- At most one thread is inside; and when all are done, the counter is the number of all iterations
and the lock is free. -/
structure NoneLost [Fintype τ] [AddMonoidWithOne α] (iterations : τ → ℕ) (s : Workers τ α) :
    Prop where
  alone : ∀ t u, (s.place t).Inside → (s.place u).Inside → t = u
  total : (∀ t, s.place t = .done) → s.counter = ((∑ t, iterations t : ℕ) : α)
  free : (∀ t, s.place t = .done) → s.lock.locked = 0 ∧ spinIsLocked s.lock = false

/-! ## The invariant -/

variable {iterations : τ → ℕ} {s : Workers τ α} {t u : τ}

/-- The iterations of `t` that the counter shows. -/
def counted (iterations : τ → ℕ) (s : Workers τ α) (t : τ) : ℕ :=
  iterations t - s.left t + match s.place t with | .unlock => 1 | _ => 0

/-- Where a thread is fits with what it has left to do. -/
def PlaceOk (counter : α) (left : ℕ) : Place α → Prop
  | .done => left = 0
  | .store loaded => 0 < left ∧ loaded = counter
  | _ => 0 < left

/-- What holds between two accesses. -/
structure WorkersOk [Fintype τ] [AddMonoidWithOne α] (iterations : τ → ℕ) (s : Workers τ α) :
    Prop where
  alone : ∀ t u, (s.place t).Inside → (s.place u).Inside → t = u
  taken : ∀ t, (s.place t).Inside → s.lock.locked ≠ 0
  held : s.lock.locked ≠ 0 → ∃ t, (s.place t).Inside
  place : ∀ t, PlaceOk s.counter (s.left t) (s.place t)
  left : ∀ t, s.left t ≤ iterations t
  counter : s.counter = ((∑ t, counted iterations s t : ℕ) : α)

theorem placeOk_nextIteration (counter : α) (left : ℕ) :
    PlaceOk counter left (nextIteration left) := by
  unfold nextIteration
  split_ifs with hzero
  · exact hzero
  · exact Nat.pos_of_ne_zero hzero

theorem not_inside_nextIteration (left : ℕ) : ¬ (nextIteration left : Place α).Inside := by
  unfold nextIteration
  split_ifs <;> exact not_false

/-- The counter matters only to a thread that has loaded it. -/
theorem PlaceOk.of_not_inside {counter counter' : α} {left : ℕ} {p : Place α}
    (h : PlaceOk counter left p) (hout : ¬ p.Inside) : PlaceOk counter' left p := by
  cases p with
  | store loaded => exact absurd trivial hout
  | _ => exact h

theorem counted_congr {s s' : Workers τ α} (hplace : s'.place u = s.place u)
    (hleft : s'.left u = s.left u) : counted iterations s' u = counted iterations s u := by
  unfold counted
  rw [hplace, hleft]

theorem inside_update [DecidableEq τ] {p : Place α} (h : (Function.update s.place t p u).Inside) :
    (u = t ∧ p.Inside) ∨ (u ≠ t ∧ (s.place u).Inside) := by
  by_cases hu : u = t
  · subst hu
    rw [Function.update_self] at h
    exact Or.inl ⟨rfl, h⟩
  · rw [Function.update_of_ne hu] at h
    exact Or.inr ⟨hu, h⟩

variable [Fintype τ] [AddMonoidWithOne α]

theorem WorkersOk.init : WorkersOk iterations (Workers.init iterations : Workers τ α) where
  alone := fun t u ht => absurd ht (not_inside_nextIteration _)
  taken := fun t ht => absurd ht (not_inside_nextIteration _)
  held := fun hlocked => absurd rfl hlocked
  place := fun t => placeOk_nextIteration _ _
  left := fun t => Nat.le_refl _
  counter := by
    have hnone : ∀ t, counted iterations (Workers.init iterations : Workers τ α) t = 0 := by
      intro t
      simp only [counted, Workers.init, Nat.sub_self, nextIteration]
      split_ifs <;> rfl
    simp only [hnone, Finset.sum_const_zero, Nat.cast_zero]
    rfl

theorem WorkersOk.noneLost (h : WorkersOk iterations s) : NoneLost iterations s where
  alone := h.alone
  total := by
    intro hdone
    have hall : ∀ t, counted iterations s t = iterations t := by
      intro t
      have hleft : s.left t = 0 := by
        have hplace := h.place t
        rwa [hdone t] at hplace
      simp only [counted, hdone t, hleft, Nat.sub_zero, Nat.add_zero]
    rw [h.counter]
    simp only [hall]
  free := by
    intro hdone
    have hzero : s.lock.locked = 0 := by
      by_contra hlocked
      obtain ⟨t, ht⟩ := h.held hlocked
      rw [hdone t] at ht
      exact ht
    exact ⟨hzero, by simp [spinIsLocked, hzero]⟩

/-! ## One access -/

variable [DecidableEq τ]

omit [AddMonoidWithOne α] in
/-- The sum moves with the one thread that moves. -/
theorem sum_counted_eq {s' : Workers τ α} {c : ℕ} (hplace : ∀ u, u ≠ t → s'.place u = s.place u)
    (hleft : ∀ u, u ≠ t → s'.left u = s.left u)
    (hself : counted iterations s' t = counted iterations s t + c) :
    ∑ u, counted iterations s' u = ∑ u, counted iterations s u + c := by
  have hrest : ∑ u ∈ Finset.univ.erase t, counted iterations s' u =
      ∑ u ∈ Finset.univ.erase t, counted iterations s u := by
    refine Finset.sum_congr rfl fun u hu => ?_
    have hne := Finset.ne_of_mem_erase hu
    exact counted_congr (hplace u hne) (hleft u hne)
  calc ∑ u, counted iterations s' u
      = ∑ u ∈ Finset.univ.erase t, counted iterations s' u + counted iterations s' t :=
        (Finset.sum_erase_add _ _ (Finset.mem_univ t)).symm
    _ = ∑ u ∈ Finset.univ.erase t, counted iterations s u + counted iterations s t + c := by
        rw [hrest, hself, Nat.add_assoc]
    _ = ∑ u, counted iterations s u + c := by
        rw [Finset.sum_erase_add _ _ (Finset.mem_univ t)]

theorem WorkersOk.counter_same (h : WorkersOk iterations s) {s' : Workers τ α}
    (hcounter : s'.counter = s.counter) (hplace : ∀ u, u ≠ t → s'.place u = s.place u)
    (hleft : ∀ u, u ≠ t → s'.left u = s.left u)
    (hself : counted iterations s' t = counted iterations s t) :
    s'.counter = ((∑ u, counted iterations s' u : ℕ) : α) := by
  rw [hcounter, h.counter, sum_counted_eq (c := 0) hplace hleft hself, Nat.add_zero]

/-- A thread that goes on, but neither gets inside nor leaves. -/
theorem WorkersOk.move (h : WorkersOk iterations s) {p : Place α} {lock : Spinlock}
    (hlock : lock.locked ≠ 0 ↔ s.lock.locked ≠ 0) (hinside : p.Inside ↔ (s.place t).Inside)
    (hplace : PlaceOk s.counter (s.left t) p)
    (hcounted : counted iterations { s with place := Function.update s.place t p } t =
      counted iterations s t) :
    WorkersOk iterations { s with lock := lock, place := Function.update s.place t p } := by
  have hsame : ∀ u, (Function.update s.place t p u).Inside ↔ (s.place u).Inside := by
    intro u
    by_cases hu : u = t
    · subst hu
      rw [Function.update_self, hinside]
    · rw [Function.update_of_ne hu]
  refine ⟨fun u v hu hv => h.alone u v ((hsame u).mp hu) ((hsame v).mp hv),
    fun u hu => hlock.mpr (h.taken u ((hsame u).mp hu)), fun hlocked => ?_, fun u => ?_, h.left, ?_⟩
  · obtain ⟨u, hu⟩ := h.held (hlock.mp hlocked)
    exact ⟨u, (hsame u).mpr hu⟩
  · by_cases hu : u = t
    · subst hu
      simpa only [Function.update_self] using hplace
    · simpa only [Function.update_of_ne hu] using h.place u
  · exact h.counter_same rfl (fun u hu => Function.update_of_ne hu _ _) (fun _ _ => rfl) hcounted

/-- The exchange of a free lock: nobody was inside. -/
theorem WorkersOk.acquire (h : WorkersOk iterations s) (ht : s.place t = .exchange)
    (hfree : s.lock.locked = 0) :
    WorkersOk iterations { s with lock := ⟨1⟩, place := Function.update s.place t .load } := by
  have hnobody : ∀ u, ¬ (s.place u).Inside := fun u hu => h.taken u hu hfree
  have honly : ∀ u, (Function.update s.place t .load u).Inside → u = t := by
    intro u hu
    rcases inside_update hu with ⟨rfl, -⟩ | ⟨-, hu⟩
    · rfl
    · exact absurd hu (hnobody u)
  refine ⟨fun u v hu hv => (honly u hu).trans (honly v hv).symm,
    fun _ _ => (by decide : (1 : UInt32) ≠ 0), fun _ => ⟨t, ?_⟩, fun u => ?_, h.left, ?_⟩
  · simp only [Function.update_self]
    trivial
  · by_cases hu : u = t
    · subst hu
      have hplace := h.place u
      rw [ht] at hplace
      simp only [Function.update_self]
      exact hplace
    · simpa only [Function.update_of_ne hu] using h.place u
  · refine h.counter_same rfl (fun u hu => Function.update_of_ne hu _ _) (fun _ _ => rfl) ?_
    simp only [counted, Function.update_self, ht]

/-- The store of the counter: one more iteration is counted. -/
theorem WorkersOk.store (h : WorkersOk iterations s) {loaded : α} (ht : s.place t = .store loaded) :
    WorkersOk iterations
      { s with counter := loaded + 1, place := Function.update s.place t .unlock } := by
  have hin : (s.place t).Inside := by
    rw [ht]
    trivial
  have honly : ∀ u, u ≠ t → ¬ (s.place u).Inside := fun u hu hu' => hu (h.alone u t hu' hin)
  have hplace := h.place t
  rw [ht] at hplace
  obtain ⟨hleft, rfl⟩ := hplace
  have hall : ∀ u, (Function.update s.place t .unlock u).Inside → u = t := by
    intro u hu
    rcases inside_update hu with ⟨rfl, -⟩ | ⟨hne, hu⟩
    · rfl
    · exact absurd hu (honly u hne)
  refine ⟨fun u v hu hv => (hall u hu).trans (hall v hv).symm, fun _ _ => h.taken t hin,
    fun _ => ⟨t, ?_⟩, fun u => ?_, h.left, ?_⟩
  · simp only [Function.update_self]
    trivial
  · by_cases hu : u = t
    · subst hu
      simp only [Function.update_self]
      exact hleft
    · simp only [Function.update_of_ne hu]
      exact (h.place u).of_not_inside (honly u hu)
  · -- the counter and the sum both grow by one
    have hsum : ∑ u, counted iterations
        { s with counter := s.counter + 1, place := Function.update s.place t .unlock } u =
          ∑ u, counted iterations s u + 1 := by
      refine sum_counted_eq (t := t) (fun u hu => Function.update_of_ne hu _ _) (fun _ _ => rfl) ?_
      simp only [counted, Function.update_self, ht, Nat.add_zero]
    rw [hsum, Nat.cast_add_one, ← h.counter]

/-- The lock is given back. -/
theorem WorkersOk.release (h : WorkersOk iterations s) (ht : s.place t = .unlock) :
    WorkersOk iterations { s with
      lock := spinUnlock s.lock
      left := Function.update s.left t (s.left t - 1)
      place := Function.update s.place t (nextIteration (s.left t - 1)) } := by
  have hin : (s.place t).Inside := by
    rw [ht]
    trivial
  have hnobody : ∀ u, ¬ (Function.update s.place t (nextIteration (s.left t - 1)) u).Inside := by
    intro u hu
    rcases inside_update hu with ⟨-, hnext⟩ | ⟨hne, hu⟩
    · exact not_inside_nextIteration _ hnext
    · exact hne (h.alone u t hu hin)
  have hleft : 0 < s.left t := by
    have hplace := h.place t
    rwa [ht] at hplace
  refine ⟨fun u v hu _ => absurd hu (hnobody u), fun u hu => absurd hu (hnobody u),
    fun hlocked => absurd rfl hlocked, fun u => ?_, fun u => ?_, ?_⟩
  · by_cases hu : u = t
    · subst hu
      simp only [Function.update_self]
      exact placeOk_nextIteration _ _
    · simpa only [Function.update_of_ne hu] using h.place u
  · by_cases hu : u = t
    · subst hu
      simp only [Function.update_self]
      exact (Nat.sub_le _ _).trans (h.left u)
    · simpa only [Function.update_of_ne hu] using h.left u
  · refine h.counter_same (t := t) rfl (fun u hu => Function.update_of_ne hu _ _)
      (fun u hu => Function.update_of_ne hu _ _) ?_
    have hle := h.left t
    simp only [counted, Function.update_self, ht, nextIteration]
    split_ifs <;> simp only <;> omega

theorem WorkersOk.step (h : WorkersOk iterations s) (turn : τ × UInt32) :
    WorkersOk iterations (s.step turn) := by
  obtain ⟨t, seen⟩ := turn
  have hplace := h.place t
  unfold Workers.step
  simp only
  cases ht : s.place t with
  | exchange =>
    rw [ht] at hplace
    by_cases hfree : s.lock.locked = 0
    · simp only [spinTryLock, hfree]
      exact h.acquire ht hfree
    · have hbusy : (s.lock.locked == 0) = false := beq_eq_false_iff_ne.mpr hfree
      simp only [spinTryLock, hbusy]
      refine h.move (iff_of_true (by decide) hfree) (by rw [ht]; rfl) hplace ?_
      simp only [counted, Function.update_self, ht]
  | relax =>
    rw [ht] at hplace
    simp only
    split_ifs
    · exact h
    · refine h.move Iff.rfl (by rw [ht]; rfl) hplace ?_
      simp only [counted, Function.update_self, ht]
  | load =>
    rw [ht] at hplace
    refine h.move Iff.rfl (by rw [ht]; rfl) ⟨hplace, rfl⟩ ?_
    simp only [counted, Function.update_self, ht]
  | store loaded => exact h.store ht
  | unlock => exact h.release ht
  | done => exact h

/-- **No update is lost under the spinlock.**  For any number of threads and iterations, and in
every order of their accesses, at most one thread at a time is inside in every state of the run.
When all are done the counter is the number of all iterations, and the lock is free. -/
theorem spin_none_lost (iterations : τ → ℕ) (schedule : List (τ × UInt32)) :
    AllStates Workers.step (NoneLost iterations) schedule
      (Workers.init iterations : Workers τ α) := by
  refine AllStates.mono (I := WorkersOk iterations) (fun _ h => h.noneLost) ?_
  exact AllStates.of_step (fun turn _ h => h.step turn) WorkersOk.init

/-- The second thread tries while the first one is inside, and gets the lock after it. -/
example : ([(0, 0), (1, 0), (0, 0), (1, 1), (0, 0), (0, 0), (1, 0), (1, 0), (1, 0), (1, 0),
    (1, 0)].foldl (fun s turn => s.step turn)
      (Workers.init fun _ => 1 : Workers (Fin 2) ℕ)).counter = 2 := by decide

end Mcsos.Sync
