import Mcsos.Sync.Lockdep

/-!
# The mutex

`mcs_mutex_try_lock` and `mcs_mutex_unlock` work on two words, the lock flag and the owner, with
atomic accesses.  The two calls are given as sequential functions first and then as the atomic
accesses they make (`atomicAccess`); a thread that is not interrupted does the same in both
(`alone_tryLock`, `alone_unlock`).

Any number of threads then take turns, one access at a time.  The flag alone decides who holds the
mutex.  The owner is behind: it is still zero after the flag was taken, and zero again before the
flag is given back.  `ownerAt` says what it is while a thread holds the mutex, by where that thread
is.
-/

namespace Mcsos.Sync

open Act

/-- `mcs_mutex_t`, without its class and its name. -/
structure Mutex where
  locked : UInt32
  owner : UInt64

/-- `mcs_mutex_init` -/
def mutexInit : Mutex := ⟨0, 0⟩

/-- `mcs_mutex_try_lock` -/
def mutexTryLock (ownerId : UInt64) : Act Mutex Err Unit := do
  failIf (ownerId = 0) .einval
  let m ← get
  if m.locked = 0 then
    modify fun m => { m with locked := 1 }
    modify fun m => { m with owner := ownerId }
  else if m.owner = ownerId then fail .edeadlk
  else fail .ebusy

/-- `mcs_mutex_unlock` -/
def mutexUnlock (ownerId : UInt64) : Act Mutex Err Unit := do
  failIf (ownerId = 0) .einval
  let m ← get
  failIf (m.owner ≠ ownerId) .eperm
  modify fun m => { m with owner := 0 }
  modify fun m => { m with locked := 0 }

/-! ## Atomic accesses -/

/-- The atomic accesses of the two calls. -/
inductive Point where
  /-- The compare-and-swap of `locked` in `mcs_mutex_try_lock`. -/
  | tryCas
  /-- The store of `owner` after it. -/
  | tryStoreOwner
  /-- The load of `owner` if it failed. -/
  | tryLoadOwner
  /-- The load of `owner` in `mcs_mutex_unlock`. -/
  | unlockLoadOwner
  /-- The store of `owner` in `mcs_mutex_unlock`. -/
  | unlockStoreOwner
  /-- The store of `locked` in `mcs_mutex_unlock`. -/
  | unlockStoreLocked
  deriving DecidableEq, Repr

/-- What comes after an access: another one, or the return of a call. -/
inductive Next where
  | goto (p : Point)
  | tryLockReturns (r : Except Err Unit)
  | unlockReturns (r : Except Err Unit)

/-- One atomic access.  The checks of the argument go with the first one. -/
def atomicAccess (ownerId : UInt64) : Point → Mutex → Mutex × Next
  | .tryCas, m =>
      if ownerId = 0 then (m, .tryLockReturns (.error .einval))
      else if m.locked = 0 then ({ m with locked := 1 }, .goto .tryStoreOwner)
      else (m, .goto .tryLoadOwner)
  | .tryStoreOwner, m => ({ m with owner := ownerId }, .tryLockReturns (.ok ()))
  | .tryLoadOwner, m =>
      if m.owner = ownerId then (m, .tryLockReturns (.error .edeadlk))
      else (m, .tryLockReturns (.error .ebusy))
  | .unlockLoadOwner, m =>
      if ownerId = 0 then (m, .unlockReturns (.error .einval))
      else if m.owner ≠ ownerId then (m, .unlockReturns (.error .eperm))
      else (m, .goto .unlockStoreOwner)
  | .unlockStoreOwner, m => ({ m with owner := 0 }, .goto .unlockStoreLocked)
  | .unlockStoreLocked, m => ({ m with locked := 0 }, .unlockReturns (.ok ()))

/-- The accesses of a call that is not interrupted; no call makes more than three. -/
def alone (ownerId : UInt64) : ℕ → Point → Mutex → Option (Except Err Unit × Mutex)
  | 0, _, _ => none
  | fuel + 1, p, m =>
      match atomicAccess ownerId p m with
      | (m, .goto p) => alone ownerId fuel p m
      | (m, .tryLockReturns r) => some (r, m)
      | (m, .unlockReturns r) => some (r, m)

theorem alone_tryLock (ownerId : UInt64) (m : Mutex) :
    alone ownerId 3 .tryCas m = some (mutexTryLock ownerId m) := by
  unfold mutexTryLock
  by_cases hzero : ownerId = 0
  · rw [failIf_bind_of_pos hzero]
    simp [alone, atomicAccess, hzero]
  · rw [failIf_bind_of_not hzero, get_bind_apply]
    by_cases hfree : m.locked = 0
    · simp only [alone, atomicAccess, if_neg hzero, if_pos hfree]
      rfl
    · by_cases howner : m.owner = ownerId
      · simp only [alone, atomicAccess, if_neg hzero, if_neg hfree, if_pos howner]
        rfl
      · simp only [alone, atomicAccess, if_neg hzero, if_neg hfree, if_neg howner]
        rfl

theorem alone_unlock (ownerId : UInt64) (m : Mutex) :
    alone ownerId 3 .unlockLoadOwner m = some (mutexUnlock ownerId m) := by
  unfold mutexUnlock
  by_cases hzero : ownerId = 0
  · rw [failIf_bind_of_pos hzero]
    simp [alone, atomicAccess, hzero]
  · rw [failIf_bind_of_not hzero, get_bind_apply]
    by_cases howner : m.owner = ownerId
    · rw [failIf_bind_of_not (not_not.mpr howner)]
      simp only [alone, atomicAccess, if_neg hzero, if_neg (not_not.mpr howner)]
      rfl
    · rw [failIf_bind_of_pos howner]
      simp only [alone, atomicAccess, if_neg hzero, if_pos howner, Ne]

/-! ## Threads -/

variable {τ : Type} [DecidableEq τ] {id : τ → UInt64}

/-- Threads `τ` on one mutex: the next access of each, if it is inside a call.  `holds` is set from
a successful compare-and-swap of a thread to its own store of `locked`, and `heldAtCall` is what
it was when the current call began; the code has neither. -/
structure Threads (τ : Type) where
  mutex : Mutex
  point : τ → Option Point
  holds : τ → Bool
  heldAtCall : τ → Bool

/-- No thread is inside a call, after `mcs_mutex_init`. -/
def Threads.init : Threads τ := ⟨mutexInit, fun _ => none, fun _ => false, fun _ => false⟩

/-- The next access, if the call goes on. -/
def Next.point : Next → Option Point
  | .goto p => some p
  | .tryLockReturns _ => none
  | .unlockReturns _ => none

/-- Whether a thread holds the mutex after an access. -/
def holdsAfter : Point → Next → Bool → Bool
  | .tryCas, .goto .tryStoreOwner, _ => true
  | .unlockStoreLocked, _, _ => false
  | _, _, before => before

/-- Thread `t` makes the access `p`. -/
def Threads.access (id : τ → UInt64) (T : Threads τ) (t : τ) (p : Point) : Threads τ :=
  { T with
    mutex := (atomicAccess (id t) p T.mutex).1
    point := Function.update T.point t (atomicAccess (id t) p T.mutex).2.point
    holds :=
      Function.update T.holds t (holdsAfter p (atomicAccess (id t) p T.mutex).2 (T.holds t)) }

/-- Thread `t` calls one of the two functions, with `p` as its first access. -/
def Threads.call (T : Threads τ) (t : τ) (p : Point) : Threads τ :=
  { T with
    point := Function.update T.point t (some p)
    heldAtCall := Function.update T.heldAtCall t (T.holds t) }

/-- One step of one thread, with what came after the access it made. -/
inductive Threads.Step (id : τ → UInt64) : Threads τ → τ → Option Next → Threads τ → Prop where
  | call (T : Threads τ) (t : τ) (p : Point) (hidle : T.point t = none)
      (hentry : p = .tryCas ∨ p = .unlockLoadOwner) : Step id T t none (T.call t p)
  | access (T : Threads τ) (t : τ) (p : Point) (hpoint : T.point t = some p) :
      Step id T t (some (atomicAccess (id t) p T.mutex).2) (T.access id t p)

/-- The states that steps lead to, in any interleaving. -/
inductive Threads.Reachable (id : τ → UInt64) : Threads τ → Prop where
  | init : Reachable id Threads.init
  | step {T T' : Threads τ} {t : τ} {next : Option Next} (h : Reachable id T)
      (hstep : Step id T t next T') : Reachable id T'

/-! ## The invariant -/

/-- The owner while a thread with this id holds the mutex and is here. -/
def ownerAt (ownerId : UInt64) : Option Point → UInt64
  | some .tryStoreOwner => 0
  | some .unlockStoreLocked => 0
  | _ => ownerId

/-- The accesses that only the thread that holds the mutex makes. -/
def Point.Inside (p : Point) : Prop :=
  p = .tryStoreOwner ∨ p = .unlockStoreOwner ∨ p = .unlockStoreLocked

/-- What holds of a single thread with this id: the mutex as it sees it, its next access, whether it
holds the mutex and whether it did when the call began. -/
structure ThreadOk (ownerId : UInt64) (m : Mutex) (point : Option Point) (holds heldAtCall : Bool) :
    Prop where
  owner : holds = true → m.owner = ownerAt ownerId point
  inside : ∀ p, point = some p → p.Inside → holds = true
  failed : point = some .tryCas ∨ point = some .tryLoadOwner → heldAtCall = holds
  taken : point = some .tryStoreOwner → heldAtCall = false

/-- What the flag and the owner say about the threads. -/
structure Threads.Safe (id : τ → UInt64) (T : Threads τ) : Prop where
  unique : ∀ t u, T.holds t = true → T.holds u = true → t = u
  free : T.mutex.locked = 0 → ∀ t, T.holds t = false
  vacant : (∀ t, T.holds t = false) → T.mutex.owner = 0
  thread : ∀ t, ThreadOk (id t) T.mutex (T.point t) (T.holds t) (T.heldAtCall t)

variable {T : Threads τ} {t : τ} {m m' : Mutex} {o : UInt64} {p : Point} {q : Option Point}
  {b c : Bool}

/-- The thread is not inside a call after its return. -/
theorem ThreadOk.returned (h : b = true → m.owner = o) : ThreadOk o m none b c :=
  ⟨h, by simp, by simp, by simp⟩

/-- A thread that does not hold the mutex does not depend on its words. -/
theorem ThreadOk.of_not_holds (h : ThreadOk o m q false c) : ThreadOk o m' q false c :=
  ⟨fun hb => (nomatch hb), h.inside, h.failed, h.taken⟩

omit [DecidableEq τ] in
theorem Threads.Safe.others (h : T.Safe id) (ht : T.holds t = true) {u : τ} (hu : u ≠ t) :
    T.holds u = false := by
  by_contra hother
  exact hu (h.unique u t (Bool.not_eq_false _ ▸ hother) ht)

/-- Thread `t` and the mutex with new states; the other threads are as before. -/
def Threads.set (T : Threads τ) (t : τ) (m : Mutex) (q : Option Point) (b c : Bool) : Threads τ :=
  ⟨m, Function.update T.point t q, Function.update T.holds t b, Function.update T.heldAtCall t c⟩

theorem Threads.holds_set_of_ne {u : τ} (hu : u ≠ t) : (T.set t m q b c).holds u = T.holds u :=
  Function.update_of_ne hu ..

theorem Threads.holds_set_self : (T.set t m q b c).holds t = b := Function.update_self ..

theorem Threads.set_thread (ht : ThreadOk (id t) m q b c)
    (hothers : ∀ u ≠ t, ThreadOk (id u) m (T.point u) (T.holds u) (T.heldAtCall u)) (u : τ) :
    ThreadOk (id u) (T.set t m q b c).mutex ((T.set t m q b c).point u) ((T.set t m q b c).holds u)
      ((T.set t m q b c).heldAtCall u) := by
  unfold Threads.set
  by_cases hu : u = t
  · subst hu
    simpa using ht
  · simpa [Function.update_of_ne hu] using hothers u hu

/-- A step that neither changes the mutex nor who holds it. -/
theorem Threads.Safe.move (h : T.Safe id) (ht : ThreadOk (id t) T.mutex q (T.holds t) c) :
    (T.set t T.mutex q (T.holds t) c).Safe id := by
  have hholds : (T.set t T.mutex q (T.holds t) c).holds = T.holds := Function.update_eq_self ..
  refine ⟨?_, ?_, ?_, T.set_thread ht fun u _ => h.thread u⟩
  · rw [hholds]
    exact h.unique
  · rw [hholds]
    exact h.free
  · rw [hholds]
    exact h.vacant

/-- A step on the mutex while no other thread holds it. -/
theorem Threads.Safe.change (h : T.Safe id) (hothers : ∀ u ≠ t, T.holds u = false)
    (ht : ThreadOk (id t) m q b c) (hfree : m.locked = 0 → b = false)
    (hvacant : b = false → m.owner = 0) : (T.set t m q b c).Safe id := by
  have hself : ∀ u, (T.set t m q b c).holds u = true → u = t := by
    intro u hu
    by_contra hne
    rw [holds_set_of_ne hne, hothers u hne] at hu
    cases hu
  refine ⟨fun u v hu hv => (hself u hu).trans (hself v hv).symm, fun hlocked u => ?_,
    fun hnone => ?_, T.set_thread ht fun u hu => ?_⟩
  · by_cases hu : u = t
    · subst hu
      rw [holds_set_self]
      exact hfree hlocked
    · rw [holds_set_of_ne hu]
      exact hothers u hu
  · exact hvacant (holds_set_self.symm.trans (hnone t))
  · have hok := h.thread u
    rw [hothers u hu] at hok ⊢
    exact hok.of_not_holds

/-! ## Every step keeps it -/

omit [DecidableEq τ] in
theorem Threads.Safe.init : (Threads.init : Threads τ).Safe id :=
  ⟨fun _ _ ht => (nomatch ht), fun _ _ => rfl, fun _ => rfl, fun _ => .returned fun hb =>
    (nomatch hb)⟩

theorem Threads.Safe.call (h : T.Safe id) (hidle : T.point t = none)
    (hentry : p = .tryCas ∨ p = .unlockLoadOwner) : (T.call t p).Safe id := by
  have ht := h.thread t
  rw [hidle] at ht
  have heq : T.call t p = T.set t T.mutex (some p) (T.holds t) (T.holds t) := by
    simp [Threads.call, Threads.set]
  rw [heq]
  apply h.move
  rcases hentry with rfl | rfl
  · exact ⟨ht.owner, by simp [Point.Inside], fun _ => rfl, by simp⟩
  · exact ⟨ht.owner, by simp [Point.Inside], fun _ => rfl, by simp⟩

theorem Threads.access_eq (T : Threads τ) (t : τ) (p : Point) {next : Next}
    (h : atomicAccess (id t) p T.mutex = (m, next)) :
    T.access id t p = T.set t m next.point (holdsAfter p next (T.holds t)) (T.heldAtCall t) := by
  simp [Threads.access, Threads.set, h]

theorem Threads.Safe.tryCas (h : T.Safe id) (hpoint : T.point t = some .tryCas) :
    (T.access id t .tryCas).Safe id := by
  have ht := h.thread t
  rw [hpoint] at ht
  by_cases hzero : id t = 0
  · rw [access_eq T t .tryCas (if_pos hzero)]
    exact h.move (.returned ht.owner)
  by_cases hlocked : T.mutex.locked = 0
  · -- the flag is taken: nobody holds the mutex, so the owner is zero
    have hnone := h.free hlocked
    rw [access_eq T t .tryCas ((if_neg hzero).trans (if_pos hlocked))]
    refine h.change (fun u _ => hnone u)
      ⟨fun _ => h.vacant hnone, fun _ _ _ => rfl, ?_, fun _ => ?_⟩
      (fun hone => absurd hone (by simp)) (fun hb => (nomatch hb))
    · simp [Next.point]
    · rw [ht.failed (Or.inl rfl), hnone t]
  · rw [access_eq T t .tryCas ((if_neg hzero).trans (if_neg hlocked))]
    exact h.move ⟨ht.owner, by simp [Next.point, Point.Inside], fun _ => ht.failed (Or.inl rfl),
      by simp [Next.point]⟩

theorem Threads.Safe.tryStoreOwner (h : T.Safe id) (hpoint : T.point t = some .tryStoreOwner) :
    (T.access id t .tryStoreOwner).Safe id := by
  have hheld := (h.thread t).inside _ hpoint (Or.inl rfl)
  rw [access_eq T t .tryStoreOwner rfl]
  refine h.change (fun u hu => h.others hheld hu) (.returned fun _ => rfl) (fun hfree => ?_)
    (fun hb => ?_)
  · exact h.free hfree t
  · exact absurd (hheld.symm.trans hb) (by decide)

theorem Threads.Safe.tryLoadOwner (h : T.Safe id) (hpoint : T.point t = some .tryLoadOwner) :
    (T.access id t .tryLoadOwner).Safe id := by
  have ht := h.thread t
  rw [hpoint] at ht
  by_cases howner : T.mutex.owner = id t
  · rw [access_eq T t .tryLoadOwner (if_pos howner)]
    exact h.move (.returned ht.owner)
  · rw [access_eq T t .tryLoadOwner (if_neg howner)]
    exact h.move (.returned ht.owner)

omit [DecidableEq τ] in
/-- Only a thread that holds the mutex is the owner. -/
theorem Threads.Safe.holds_of_owner (hinj : Function.Injective id) (hzero : ∀ t, id t ≠ 0)
    (h : T.Safe id) (howner : T.mutex.owner = id t) : T.holds t = true := by
  have hsome : ¬ ∀ u, T.holds u = false := fun hnone => hzero t (howner.symm.trans (h.vacant hnone))
  obtain ⟨u, hu⟩ := not_forall.mp hsome
  have hheld : T.holds u = true := Bool.not_eq_false _ ▸ hu
  have howns : id t = ownerAt (id u) (T.point u) := howner.symm.trans ((h.thread u).owner hheld)
  unfold ownerAt at howns
  split at howns
  · exact absurd howns (hzero t)
  · exact absurd howns (hzero t)
  · exact hinj howns ▸ hheld

theorem Threads.Safe.unlockLoadOwner (hinj : Function.Injective id) (hzero : ∀ t, id t ≠ 0)
    (h : T.Safe id) (hpoint : T.point t = some .unlockLoadOwner) :
    (T.access id t .unlockLoadOwner).Safe id := by
  have ht := h.thread t
  rw [hpoint] at ht
  by_cases howner : T.mutex.owner = id t
  · have hheld := h.holds_of_owner hinj hzero howner
    rw [access_eq T t .unlockLoadOwner ((if_neg (hzero t)).trans (if_neg (not_not.mpr howner)))]
    exact h.move ⟨ht.owner, fun _ _ _ => hheld, by simp [Next.point], by simp [Next.point]⟩
  · rw [access_eq T t .unlockLoadOwner ((if_neg (hzero t)).trans (if_pos howner))]
    exact h.move (.returned ht.owner)

theorem Threads.Safe.unlockStoreOwner (h : T.Safe id)
    (hpoint : T.point t = some .unlockStoreOwner) :
    (T.access id t .unlockStoreOwner).Safe id := by
  have hheld := (h.thread t).inside _ hpoint (Or.inr (Or.inl rfl))
  rw [access_eq T t .unlockStoreOwner rfl]
  refine h.change (fun u hu => h.others hheld hu)
    ⟨fun _ => rfl, fun _ _ _ => hheld, by simp [Next.point], by simp [Next.point]⟩ (fun hfree => ?_)
    (fun _ => rfl)
  exact h.free hfree t

theorem Threads.Safe.unlockStoreLocked (h : T.Safe id)
    (hpoint : T.point t = some .unlockStoreLocked) :
    (T.access id t .unlockStoreLocked).Safe id := by
  have ht := h.thread t
  have hheld := ht.inside _ hpoint (Or.inr (Or.inr rfl))
  have howner := ht.owner hheld
  rw [hpoint] at howner
  rw [access_eq T t .unlockStoreLocked rfl]
  exact h.change (fun u hu => h.others hheld hu) (.returned fun hb => (nomatch hb)) (fun _ => rfl)
    fun _ => howner

theorem Threads.Step.safe {T' : Threads τ} {next : Option Next} (hinj : Function.Injective id)
    (hzero : ∀ t, id t ≠ 0) (hstep : Step id T t next T') (h : T.Safe id) : T'.Safe id := by
  cases hstep with
  | call p hidle hentry => exact h.call hidle hentry
  | access p hpoint =>
      cases p with
      | tryCas => exact h.tryCas hpoint
      | tryStoreOwner => exact h.tryStoreOwner hpoint
      | tryLoadOwner => exact h.tryLoadOwner hpoint
      | unlockLoadOwner => exact h.unlockLoadOwner hinj hzero hpoint
      | unlockStoreOwner => exact h.unlockStoreOwner hpoint
      | unlockStoreLocked => exact h.unlockStoreLocked hpoint

theorem Threads.Reachable.safe (hinj : Function.Injective id) (hzero : ∀ t, id t ≠ 0)
    (h : T.Reachable id) : T.Safe id := by
  induction h with
  | init => exact Threads.Safe.init
  | step _ hstep ih => exact hstep.safe hinj hzero ih

/-! ## Return values -/

/-- The last access of a successful unlock. -/
theorem point_of_unlockReturns (h : (atomicAccess o p m).2 = .unlockReturns (.ok ())) :
    p = .unlockStoreLocked := by
  cases p with
  | unlockStoreLocked => rfl
  | tryStoreOwner | unlockStoreOwner => cases h
  | tryCas | tryLoadOwner =>
      simp only [atomicAccess] at h
      split_ifs at h
  | unlockLoadOwner =>
      simp only [atomicAccess] at h
      split_ifs at h
      · cases h
      · cases h

/-- The ways in which `mcs_mutex_try_lock` returns. -/
theorem point_of_tryLockReturns {r : Except Err Unit}
    (h : (atomicAccess o p m).2 = .tryLockReturns r) :
    (p = .tryCas ∧ o = 0) ∨ (p = .tryStoreOwner ∧ r = .ok ()) ∨
    (p = .tryLoadOwner ∧ r = .error (if m.owner = o then .edeadlk else .ebusy)) := by
  cases p with
  | tryCas =>
      simp only [atomicAccess] at h
      split_ifs at h with hzero
      exact Or.inl ⟨rfl, hzero⟩
  | tryStoreOwner =>
      cases h
      exact Or.inr (Or.inl ⟨rfl, rfl⟩)
  | tryLoadOwner =>
      simp only [atomicAccess] at h
      split_ifs at h with howner
      · cases h
        exact Or.inr (Or.inr ⟨rfl, by rw [if_pos howner]⟩)
      · cases h
        exact Or.inr (Or.inr ⟨rfl, by rw [if_neg howner]⟩)
  | unlockStoreOwner | unlockStoreLocked => cases h
  | unlockLoadOwner =>
      simp only [atomicAccess] at h
      split_ifs at h

theorem Threads.Step.point_of_some {T' : Threads τ} {next : Next} (h : Step id T t (some next) T') :
    ∃ p, T.point t = some p ∧ (atomicAccess (id t) p T.mutex).2 = next := by
  cases h with
  | access p hpoint => exact ⟨p, hpoint, rfl⟩

theorem Threads.Safe.unlockReturns {T' : Threads τ} (h : T.Safe id)
    (hstep : Step id T t (some (.unlockReturns (.ok ()))) T') : T.holds t = true := by
  obtain ⟨p, hpoint, hnext⟩ := hstep.point_of_some
  obtain rfl := point_of_unlockReturns hnext
  exact (h.thread t).inside _ hpoint (Or.inr (Or.inr rfl))

theorem Threads.Safe.tryLockReturns {T' : Threads τ} {r : Except Err Unit}
    (hinj : Function.Injective id) (hzero : ∀ t, id t ≠ 0) (h : T.Safe id)
    (hstep : Step id T t (some (.tryLockReturns r)) T') :
    (r = .error .edeadlk ↔ T.heldAtCall t = true) ∧ (r = .error .edeadlk → T.holds t = true) := by
  obtain ⟨p, hpoint, hnext⟩ := hstep.point_of_some
  have ht := h.thread t
  rcases point_of_tryLockReturns hnext with ⟨_, hnull⟩ | ⟨rfl, rfl⟩ | ⟨rfl, rfl⟩
  · exact absurd hnull (hzero t)
  · rw [ht.taken hpoint]
    simp
  · -- the load sees the id of the caller exactly when the caller holds the mutex
    have howner : T.mutex.owner = id t ↔ T.holds t = true := by
      refine ⟨h.holds_of_owner hinj hzero, fun hheld => ?_⟩
      have := ht.owner hheld
      rwa [hpoint] at this
    rw [ht.failed (Or.inr hpoint), ← howner]
    by_cases heq : T.mutex.owner = id t
    · simp [heq]
    · simp [heq]

/-- **The mutex.**  For threads with distinct nonzero ids, in every interleaving of their accesses:
at most one thread holds the mutex; the owner is zero or that thread, and zero while the flag is
clear; an unlock succeeds only for the thread that holds the mutex; and a try-lock reports a
deadlock exactly to a thread that already held it when it called. -/
theorem mutex_safe (id : τ → UInt64) (hinj : Function.Injective id) (hzero : ∀ t, id t ≠ 0)
    (T : Threads τ) (h : T.Reachable id) :
    (∀ t u, T.holds t = true → T.holds u = true → t = u) ∧
    (T.mutex.owner = 0 ∨ ∃ t, T.holds t = true ∧ T.mutex.owner = id t) ∧
    (T.mutex.locked = 0 → T.mutex.owner = 0) ∧
    (∀ t T', T.Step id t (some (.unlockReturns (.ok ()))) T' → T.holds t = true) ∧
    (∀ t r T', T.Step id t (some (.tryLockReturns r)) T' →
      (r = .error .edeadlk ↔ T.heldAtCall t = true) ∧
      (r = .error .edeadlk → T.holds t = true)) := by
  have hsafe := h.safe hinj hzero
  refine ⟨hsafe.unique, ?_, fun hfree => hsafe.vacant (hsafe.free hfree),
    fun t T' => hsafe.unlockReturns, fun t r T' => hsafe.tryLockReturns hinj hzero⟩
  by_cases hnone : ∀ t, T.holds t = false
  · exact Or.inl (hsafe.vacant hnone)
  · obtain ⟨t, ht⟩ := not_forall.mp hnone
    have hheld : T.holds t = true := Bool.not_eq_false _ ▸ ht
    have howner := (hsafe.thread t).owner hheld
    unfold ownerAt at howner
    split at howner
    · exact Or.inl howner
    · exact Or.inl howner
    · exact Or.inr ⟨t, hheld, howner⟩

/-- Thread `true` has taken the flag and thread `false` has failed to, before the owner is
stored. -/
theorem mutex_safe_two_threads :
    ∃ T : Threads Bool, T.Reachable (fun t => if t then 2 else 1) ∧ T.holds true = true ∧
      T.mutex.owner = 0 ∧ T.point false = some .tryLoadOwner ∧ T.holds false = false := by
  have hinit : (Threads.init : Threads Bool).Reachable fun t => if t then 2 else 1 := .init
  have hcall := hinit.step (.call _ true .tryCas rfl (Or.inl rfl))
  have hcas := hcall.step (.access _ true .tryCas rfl)
  have hcallOther := hcas.step (.call _ false .tryCas rfl (Or.inl rfl))
  have hcasOther := hcallOther.step (.access _ false .tryCas rfl)
  obtain ⟨T, hreach, hholds, howner, hpoint⟩ : ∃ T : Threads Bool,
      T.Reachable (fun t => if t then 2 else 1) ∧ T.holds true = true ∧ T.mutex.owner = 0 ∧
        T.point false = some .tryLoadOwner := ⟨_, hcasOther, rfl, rfl, rfl⟩
  have hsafe := mutex_safe (fun t : Bool => if t then 2 else 1) (by decide) (by decide) T hreach
  refine ⟨T, hreach, hholds, howner, hpoint, ?_⟩
  by_contra hheld
  exact absurd (hsafe.1 true false hholds (Bool.not_eq_false _ ▸ hheld)) (by decide)

end Mcsos.Sync
