import Mcsos.Lib.Act
import Mathlib.Data.Fintype.EquivFin
import Mathlib.Data.Fintype.Lattice
import Mathlib.Data.Fin.VecNotation
import Mathlib.Logic.Relation

/-!
# Lock ordering

Every task has a stack of the lock classes it holds or waits for.  `mcs_lockdep_before_acquire`
pushes a class, and refuses one that is not above all classes on the stack;
`mcs_lockdep_after_release` pops the top of the stack.

The second half of the file is about tasks that use the two calls around their locks, one system of
them with all interleavings.  A task that waits has the class of the lock on top of its stack, and
the classes of the locks granted to it below, so along a chain of tasks that wait for each other the
classes grow and the chain cannot close (`lock_order_no_deadlock`).
-/

namespace Mcsos.Sync

open Act

/-- The error codes of `mcs_sync.h`. -/
inductive Err where
  | einval
  | ebusy
  | eperm
  | edeadlk
  | eoverflow
  deriving DecidableEq, Repr

/-- `MCS_LOCKDEP_MAX_HELD` -/
def maxHeld : ℕ := 16

/-- `mcs_lockdep_state_t`; only the first `maxHeld` entries of the array exist. -/
structure LockdepState where
  heldClass : ℕ → UInt32
  depth : ℕ
  violationCount : UInt32

/-- `mcs_lockdep_init` -/
def lockdepInit : LockdepState := ⟨fun _ => 0, 0, 0⟩

/-- The test of the first loop of `mcs_lockdep_before_acquire`. -/
def LockdepState.onStack (s : LockdepState) (classId : UInt32) : Bool :=
  (List.range s.depth).any fun i => s.heldClass i == classId

/-- Counts a violation and returns its error code. -/
def violation (e : Err) : Act LockdepState Err Unit := do
  modify fun s => { s with violationCount := s.violationCount + 1 }
  fail e

/-- The class `c` on top of the stack. -/
def LockdepState.push (s : LockdepState) (c : UInt32) : LockdepState :=
  { s with heldClass := Function.update s.heldClass s.depth c, depth := s.depth + 1 }

/-- The stack without its top. -/
def LockdepState.pop (s : LockdepState) : LockdepState :=
  { s with heldClass := Function.update s.heldClass (s.depth - 1) 0, depth := s.depth - 1 }

/-- `mcs_lockdep_before_acquire` -/
def lockdepBeforeAcquire (classId : UInt32) : Act LockdepState Err Unit := do
  failIf (classId = 0) .einval
  let s ← get
  if maxHeld ≤ s.depth then violation .eoverflow
  else if s.onStack classId then violation .edeadlk
  else if 0 < s.depth ∧ classId < s.heldClass (s.depth - 1) then violation .edeadlk
  else modify fun s => s.push classId

/-- `mcs_lockdep_after_release` -/
def lockdepAfterRelease (classId : UInt32) : Act LockdepState Err Unit := do
  failIf (classId = 0) .einval
  let s ← get
  if s.depth = 0 then violation .eperm
  else if s.heldClass (s.depth - 1) ≠ classId then violation .edeadlk
  else modify LockdepState.pop

/-! ## What the two calls do -/

variable {s s' : LockdepState} {c : UInt32} {e : Err}

/-- The class `c` is on the stack. -/
def OnStack (s : LockdepState) (c : UInt32) : Prop := ∃ i < s.depth, s.heldClass i = c

/-- A rejected call changes no class, and counts a violation unless the class is the invalid one. -/
structure Rejected (c : UInt32) (s s' : LockdepState) : Prop where
  heldClass : s'.heldClass = s.heldClass
  depth : s'.depth = s.depth
  violationCount : c ≠ 0 → s'.violationCount = s.violationCount + 1

theorem onStack_iff : s.onStack c = true ↔ OnStack s c := by
  simp [LockdepState.onStack, OnStack, List.any_eq_true]

theorem rejected_violation (s : LockdepState) (c : UInt32) (e : Err) :
    Rejected c s (violation e s).2 :=
  ⟨rfl, rfl, fun _ => rfl⟩

/-- `mcs_lockdep_before_acquire` pushes a class above the others or rejects the call. -/
theorem beforeAcquire_cases (s : LockdepState) (c : UInt32) :
    (∃ e, (lockdepBeforeAcquire c s).1 = .error e ∧ Rejected c s (lockdepBeforeAcquire c s).2) ∨
    (c ≠ 0 ∧ s.depth < maxHeld ∧ s.onStack c = false ∧
      (0 < s.depth → s.heldClass (s.depth - 1) ≤ c) ∧
      lockdepBeforeAcquire c s = (.ok (), s.push c)) := by
  unfold lockdepBeforeAcquire
  by_cases hzero : c = 0
  · left
    rw [failIf_bind_of_pos hzero]
    exact ⟨_, rfl, rfl, rfl, fun h => absurd hzero h⟩
  · rw [failIf_bind_of_not hzero, get_bind_apply]
    split_ifs with hfull hheld horder
    · exact Or.inl ⟨_, rfl, rejected_violation s c _⟩
    · exact Or.inl ⟨_, rfl, rejected_violation s c _⟩
    · exact Or.inl ⟨_, rfl, rejected_violation s c _⟩
    · refine Or.inr ⟨hzero, Nat.not_le.mp hfull, Bool.not_eq_true _ ▸ hheld, fun hdepth => ?_, rfl⟩
      exact UInt32.not_lt.mp fun hlt => horder ⟨hdepth, hlt⟩

/-- `mcs_lockdep_after_release` pops its class from the top or rejects the call. -/
theorem afterRelease_cases (s : LockdepState) (c : UInt32) :
    (∃ e, (lockdepAfterRelease c s).1 = .error e ∧ Rejected c s (lockdepAfterRelease c s).2) ∨
    (c ≠ 0 ∧ 0 < s.depth ∧ s.heldClass (s.depth - 1) = c ∧
      lockdepAfterRelease c s = (.ok (), s.pop)) := by
  unfold lockdepAfterRelease
  by_cases hzero : c = 0
  · left
    rw [failIf_bind_of_pos hzero]
    exact ⟨_, rfl, rfl, rfl, fun h => absurd hzero h⟩
  · rw [failIf_bind_of_not hzero, get_bind_apply]
    split_ifs with hempty htop
    · exact Or.inl ⟨_, rfl, rejected_violation s c _⟩
    · exact Or.inl ⟨_, rfl, rejected_violation s c _⟩
    · exact Or.inr ⟨hzero, Nat.pos_of_ne_zero hempty, not_not.mp htop, rfl⟩

theorem beforeAcquire_error (h : (lockdepBeforeAcquire c s).1 = .error e) :
    Rejected c s (lockdepBeforeAcquire c s).2 := by
  rcases beforeAcquire_cases s c with ⟨_, _, hrejected⟩ | ⟨_, _, _, _, heq⟩
  · exact hrejected
  · rw [heq] at h
    cases h

theorem afterRelease_error (h : (lockdepAfterRelease c s).1 = .error e) :
    Rejected c s (lockdepAfterRelease c s).2 := by
  rcases afterRelease_cases s c with ⟨_, _, hrejected⟩ | ⟨_, _, _, heq⟩
  · exact hrejected
  · rw [heq] at h
    cases h

/-! ## The stack -/

/-- The stack fits its array, and its classes are valid and strictly increasing. -/
structure Ordered (s : LockdepState) : Prop where
  depth : s.depth ≤ maxHeld
  nonzero : ∀ i < s.depth, s.heldClass i ≠ 0
  increasing : ∀ i j, i < j → j < s.depth → s.heldClass i < s.heldClass j

/-- The class `c` is the top of the stack. -/
def OnTop (s : LockdepState) (c : UInt32) : Prop := 0 < s.depth ∧ s.heldClass (s.depth - 1) = c

theorem ordered_lockdepInit : Ordered lockdepInit :=
  ⟨Nat.zero_le _, fun _ h => absurd h (Nat.not_lt_zero _), fun _ _ _ h => absurd h
    (Nat.not_lt_zero _)⟩

theorem Rejected.ordered (h : Rejected c s s') (hs : Ordered s) : Ordered s' := by
  obtain ⟨hclass, hdepth, _⟩ := h
  constructor
  · rw [hdepth]
    exact hs.depth
  · rw [hclass, hdepth]
    exact hs.nonzero
  · rw [hclass, hdepth]
    exact hs.increasing

theorem Rejected.onStack (h : Rejected c s s') (d : UInt32) : OnStack s' d ↔ OnStack s d := by
  unfold OnStack
  rw [h.heldClass, h.depth]

/-- The top is the greatest class of an ordered stack. -/
theorem Ordered.le_top (hs : Ordered s) {i : ℕ} (hi : i < s.depth) :
    s.heldClass i ≤ s.heldClass (s.depth - 1) := by
  rcases Nat.lt_or_ge i (s.depth - 1) with hlt | hge
  · exact UInt32.le_of_lt (hs.increasing i _ hlt (by omega))
  · obtain rfl : i = s.depth - 1 := by omega
    exact UInt32.le_refl _

theorem Ordered.lt_top (hs : Ordered s) {d : UInt32} (htop : OnTop s d) (hc : OnStack s c)
    (hne : c ≠ d) : c < d := by
  obtain ⟨i, hi, rfl⟩ := hc
  have hle := hs.le_top hi
  rw [htop.2] at hle
  exact UInt32.lt_of_le_of_ne hle hne

theorem heldClass_push_self (s : LockdepState) (c : UInt32) : (s.push c).heldClass s.depth = c :=
  Function.update_self ..

theorem heldClass_push_of_lt {i : ℕ} (hi : i < s.depth) : (s.push c).heldClass i = s.heldClass i :=
  Function.update_of_ne hi.ne ..

theorem heldClass_pop_of_lt {i : ℕ} (hi : i < s.depth - 1) : s.pop.heldClass i = s.heldClass i :=
  Function.update_of_ne hi.ne ..

theorem lt_depth_push {i : ℕ} : i < (s.push c).depth ↔ i < s.depth ∨ i = s.depth :=
  Nat.lt_succ_iff_lt_or_eq

theorem onStack_push (d : UInt32) : OnStack (s.push c) d ↔ OnStack s d ∨ c = d := by
  constructor
  · rintro ⟨i, hi, rfl⟩
    rcases lt_depth_push.mp hi with hlt | rfl
    · exact Or.inl ⟨i, hlt, (heldClass_push_of_lt hlt).symm⟩
    · exact Or.inr (heldClass_push_self s c).symm
  · rintro (⟨i, hi, rfl⟩ | rfl)
    · exact ⟨i, lt_depth_push.mpr (Or.inl hi), heldClass_push_of_lt hi⟩
    · exact ⟨s.depth, lt_depth_push.mpr (Or.inr rfl), heldClass_push_self s c⟩

theorem onTop_push (s : LockdepState) (c : UInt32) : OnTop (s.push c) c :=
  ⟨Nat.succ_pos _, heldClass_push_self s c⟩

/-- Every class but the top stays on the stack. -/
theorem OnStack.pop {d : UInt32} (h : OnStack s d) (hne : s.heldClass (s.depth - 1) ≠ d) :
    OnStack s.pop d := by
  obtain ⟨i, hi, rfl⟩ := h
  have hlt : i < s.depth - 1 := by
    rcases Nat.lt_or_ge i (s.depth - 1) with hlt | hge
    · exact hlt
    · exact absurd (congrArg s.heldClass (by omega)) hne
  exact ⟨i, hlt, heldClass_pop_of_lt hlt⟩

/-- A class above the top is pushed. -/
theorem Ordered.push (hs : Ordered s) (hzero : c ≠ 0) (hroom : s.depth < maxHeld)
    (hnew : s.onStack c = false) (hle : 0 < s.depth → s.heldClass (s.depth - 1) ≤ c) :
    Ordered (s.push c) := by
  have hbelow : ∀ i < s.depth, s.heldClass i < c := by
    intro i hi
    refine UInt32.lt_of_le_of_ne (UInt32.le_trans (hs.le_top hi) (hle (by omega))) fun heq => ?_
    rw [onStack_iff.mpr ⟨i, hi, heq⟩] at hnew
    cases hnew
  refine ⟨hroom, fun i hi => ?_, fun i j hij hj => ?_⟩
  · rcases lt_depth_push.mp hi with hlt | rfl
    · rw [heldClass_push_of_lt hlt]
      exact hs.nonzero i hlt
    · rwa [heldClass_push_self]
  · rcases lt_depth_push.mp hj with hlt | rfl
    · rw [heldClass_push_of_lt hlt, heldClass_push_of_lt (hij.trans hlt)]
      exact hs.increasing i j hij hlt
    · rw [heldClass_push_self, heldClass_push_of_lt hij]
      exact hbelow i hij

theorem Ordered.pop (hs : Ordered s) : Ordered s.pop := by
  refine ⟨(Nat.sub_le _ _).trans hs.depth, fun i hi => ?_, fun i j hij hj => ?_⟩
  · rw [heldClass_pop_of_lt hi]
    exact hs.nonzero i (hi.trans_le (Nat.sub_le _ _))
  · rw [heldClass_pop_of_lt hj, heldClass_pop_of_lt (hij.trans hj)]
    exact hs.increasing i j hij (hj.trans_le (Nat.sub_le _ _))

/-! ## Tasks -/

variable {τ Λ : Type} {cls : Λ → UInt32}

/-- Tasks `τ` that use locks `Λ`: the lock checker of each, the lock it waits for, and the locks it
has been granted and has not released. -/
structure System (τ Λ : Type) where
  lockdep : τ → LockdepState
  waiting : τ → Option Λ
  granted : τ → Finset Λ

/-- Nothing is locked, and every checker comes from `mcs_lockdep_init`. -/
def System.init : System τ Λ := ⟨fun _ => lockdepInit, fun _ => none, fun _ => ∅⟩

variable [DecidableEq τ]

/-- Task `t` with a new state; the others are as before. -/
def System.setTask (S : System τ Λ) (t : τ) (s : LockdepState) (w : Option Λ) (g : Finset Λ) :
    System τ Λ :=
  ⟨Function.update S.lockdep t s, Function.update S.waiting t w, Function.update S.granted t g⟩

/-- One step of one task.  `cls` is the class of a lock.  Which lock is granted when is left
open. -/
inductive Step [DecidableEq Λ] (cls : Λ → UInt32) : System τ Λ → System τ Λ → Prop where
  /-- The checker refuses the lock, and the task does not wait. -/
  | refused (S : System τ Λ) (t : τ) (l : Λ) (e : Err) (s' : LockdepState)
      (hrunning : S.waiting t = none)
      (hcall : lockdepBeforeAcquire (cls l) (S.lockdep t) = (.error e, s')) :
      Step cls S (S.setTask t s' none (S.granted t))
  /-- The checker admits the lock, and the task waits. -/
  | wait (S : System τ Λ) (t : τ) (l : Λ) (s' : LockdepState)
      (hrunning : S.waiting t = none)
      (hcall : lockdepBeforeAcquire (cls l) (S.lockdep t) = (.ok (), s')) :
      Step cls S (S.setTask t s' (some l) (S.granted t))
  /-- The task gets the lock it waits for. -/
  | grant (S : System τ Λ) (t : τ) (l : Λ) (hwaiting : S.waiting t = some l) :
      Step cls S (S.setTask t (S.lockdep t) none (insert l (S.granted t)))
  /-- The task releases a lock. -/
  | release (S : System τ Λ) (t : τ) (l : Λ) (hrunning : S.waiting t = none)
      (hgranted : l ∈ S.granted t) :
      Step cls S (S.setTask t (S.lockdep t) none ((S.granted t).erase l))
  /-- The task reports the release of a class to the checker, whatever the answer is. -/
  | report (S : System τ Λ) (t : τ) (c : UInt32) (hrunning : S.waiting t = none)
      (hreleased : ∀ l ∈ S.granted t, cls l ≠ c) :
      Step cls S (S.setTask t (lockdepAfterRelease c (S.lockdep t)).2 none (S.granted t))

/-- The systems that steps lead to, in any interleaving. -/
def Reachable [DecidableEq Λ] (cls : Λ → UInt32) (S : System τ Λ) : Prop :=
  Relation.ReflTransGen (Step cls) System.init S

/-- What holds of a single task: its stack is ordered, has the classes of its locks, and on top
the class it waits for, of which it has no lock. -/
structure TaskOk (cls : Λ → UInt32) (s : LockdepState) (w : Option Λ) (g : Finset Λ) : Prop where
  ordered : Ordered s
  granted : ∀ l ∈ g, OnStack s (cls l)
  waiting : ∀ l, w = some l → OnTop s (cls l) ∧ ∀ m ∈ g, cls m ≠ cls l

variable {w : Option Λ} {g : Finset Λ}

theorem taskOk_init : TaskOk cls lockdepInit none ∅ :=
  ⟨ordered_lockdepInit, by simp, by simp⟩

theorem TaskOk.rejected (h : TaskOk cls s none g) (hrejected : Rejected c s s') :
    TaskOk cls s' none g := by
  refine ⟨hrejected.ordered h.ordered, fun l hl => ?_, fun l hl => by cases hl⟩
  rw [hrejected.onStack]
  exact h.granted l hl

theorem TaskOk.admitted {l : Λ} (h : TaskOk cls s none g)
    (hcall : lockdepBeforeAcquire (cls l) s = (.ok (), s')) : TaskOk cls s' (some l) g := by
  rcases beforeAcquire_cases s (cls l) with ⟨_, herror, _⟩ | ⟨hzero, hroom, hnew, hle, heq⟩
  · rw [hcall] at herror
    cases herror
  · obtain rfl : s.push (cls l) = s' := by
      rw [heq] at hcall
      exact congrArg Prod.snd hcall
    refine ⟨h.ordered.push hzero hroom hnew hle, fun m hm => ?_, ?_⟩
    · exact (onStack_push _).mpr (Or.inl (h.granted m hm))
    · rintro _ ⟨rfl⟩
      refine ⟨onTop_push s _, fun m hm heq => ?_⟩
      obtain ⟨i, hi, hclass⟩ := h.granted m hm
      rw [onStack_iff.mpr ⟨i, hi, hclass.trans heq⟩] at hnew
      cases hnew

theorem TaskOk.grant [DecidableEq Λ] {l : Λ} (h : TaskOk cls s (some l) g) :
    TaskOk cls s none (insert l g) := by
  refine ⟨h.ordered, fun m hm => ?_, fun m hm => by cases hm⟩
  rcases Finset.mem_insert.mp hm with rfl | hm
  · obtain ⟨hdepth, htop⟩ := (h.waiting m rfl).1
    exact ⟨_, Nat.sub_lt hdepth Nat.one_pos, htop⟩
  · exact h.granted m hm

theorem TaskOk.release [DecidableEq Λ] (h : TaskOk cls s none g) (l : Λ) :
    TaskOk cls s none (g.erase l) :=
  ⟨h.ordered, fun m hm => h.granted m (Finset.mem_of_mem_erase hm), fun m hm => by cases hm⟩

theorem TaskOk.report (h : TaskOk cls s none g) (hreleased : ∀ l ∈ g, cls l ≠ c) :
    TaskOk cls (lockdepAfterRelease c s).2 none g := by
  rcases afterRelease_cases s c with ⟨_, _, hrejected⟩ | ⟨_, _, htop, heq⟩
  · exact h.rejected hrejected
  · rw [heq]
    refine ⟨h.ordered.pop, fun l hl => ?_, fun l hl => by cases hl⟩
    refine (h.granted l hl).pop fun hclass => hreleased l hl ?_
    exact hclass.symm.trans htop

/-- What holds of all tasks. -/
def AllOk (cls : Λ → UInt32) (S : System τ Λ) : Prop :=
  ∀ t, TaskOk cls (S.lockdep t) (S.waiting t) (S.granted t)

theorem AllOk.setTask {S : System τ Λ} (h : AllOk cls S) {t : τ} (ht : TaskOk cls s w g) :
    AllOk cls (S.setTask t s w g) := by
  intro u
  unfold System.setTask
  by_cases hut : u = t
  · subst hut
    simpa using ht
  · simpa [Function.update_of_ne hut] using h u

variable [DecidableEq Λ]

theorem Step.allOk {S S' : System τ Λ} (hstep : Step cls S S') (h : AllOk cls S) :
    AllOk cls S' := by
  cases hstep with
  | refused t l e s' hrunning hcall =>
      have ht : TaskOk cls (S.lockdep t) none (S.granted t) := hrunning ▸ h t
      have hrejected : Rejected (cls l) (S.lockdep t)
          (lockdepBeforeAcquire (cls l) (S.lockdep t)).2 :=
        beforeAcquire_error (congrArg Prod.fst hcall)
      rw [hcall] at hrejected
      exact h.setTask (ht.rejected hrejected)
  | wait t l s' hrunning hcall =>
      have ht : TaskOk cls (S.lockdep t) none (S.granted t) := hrunning ▸ h t
      exact h.setTask (ht.admitted hcall)
  | grant t l hwaiting =>
      have ht : TaskOk cls (S.lockdep t) (some l) (S.granted t) := hwaiting ▸ h t
      exact h.setTask ht.grant
  | release t l hrunning hgranted =>
      have ht : TaskOk cls (S.lockdep t) none (S.granted t) := hrunning ▸ h t
      exact h.setTask (ht.release l)
  | report t c hrunning hreleased =>
      have ht : TaskOk cls (S.lockdep t) none (S.granted t) := hrunning ▸ h t
      exact h.setTask (ht.report hreleased)

theorem Reachable.allOk {S : System τ Λ} (h : Reachable cls S) : AllOk cls S := by
  induction h with
  | refl => exact fun _ => taskOk_init
  | tail _ hstep ih => exact hstep.allOk ih

/-- Task `t` waits for a lock of a class that `u` has been granted and has not released. -/
def WaitsFor (cls : Λ → UInt32) (S : System τ Λ) (t u : τ) : Prop :=
  ∃ l, S.waiting t = some l ∧ ∃ m ∈ S.granted u, cls m = cls l

/-- Along a cycle of `n + 1` tasks the classes they wait for would grow forever. -/
theorem Reachable.no_cycle {S : System τ Λ} (h : Reachable cls S) (n : ℕ)
    (cycle : Fin (n + 1) → τ) :
    ¬ ∀ i, WaitsFor cls S (cycle i) (cycle (i + 1)) := by
  intro hcycle
  choose l hwaiting m hgranted hclass using hcycle
  obtain ⟨i, hmax⟩ := Finite.exists_max fun i => (cls (l i)).toNat
  have ht := h.allOk (cycle (i + 1))
  obtain ⟨htop, hne⟩ := ht.waiting _ (hwaiting (i + 1))
  have hlt : cls (m i) < cls (l (i + 1)) :=
    ht.ordered.lt_top htop (ht.granted _ (hgranted i)) (hne _ (hgranted i))
  rw [hclass i] at hlt
  exact absurd (hmax (i + 1)) (Nat.not_le.mpr hlt)

/-- **Lock ordering.**  In every interleaving of the tasks, every stack is ordered, a rejected call
leaves the stack alone and counts one violation, and no tasks wait for each other in a cycle. -/
theorem lock_order_no_deadlock (cls : Λ → UInt32) (S : System τ Λ) (h : Reachable cls S) :
    (∀ t, Ordered (S.lockdep t)) ∧
    (∀ t c e, (lockdepBeforeAcquire c (S.lockdep t)).1 = .error e →
      Rejected c (S.lockdep t) (lockdepBeforeAcquire c (S.lockdep t)).2) ∧
    (∀ t c e, (lockdepAfterRelease c (S.lockdep t)).1 = .error e →
      Rejected c (S.lockdep t) (lockdepAfterRelease c (S.lockdep t)).2) ∧
    ∀ (n : ℕ) (cycle : Fin (n + 1) → τ), ¬ ∀ i, WaitsFor cls S (cycle i) (cycle (i + 1)) :=
  ⟨fun t => (h.allOk t).ordered, fun _ _ _ => beforeAcquire_error, fun _ _ _ => afterRelease_error,
    h.no_cycle⟩

/-- Task `0` holds a lock of class `1` and waits for one of class `2`, which task `1` holds. -/
theorem lock_order_no_deadlock_two_tasks :
    ∃ S : System ℕ UInt32, Reachable id S ∧ WaitsFor id S 0 1 ∧ ¬ WaitsFor id S 1 0 := by
  have hstart : Reachable id (System.init : System ℕ UInt32) := Relation.ReflTransGen.refl
  have hwait0 := hstart.tail (Step.wait _ 0 1 (lockdepInit.push 1) rfl rfl)
  have hgrant0 := hwait0.tail (Step.grant _ 0 1 rfl)
  have hwait1 := hgrant0.tail (Step.wait _ 1 2 (lockdepInit.push 2) rfl rfl)
  have hgrant1 := hwait1.tail (Step.grant _ 1 2 rfl)
  have hblocked := hgrant1.tail (Step.wait _ 0 2 ((lockdepInit.push 1).push 2) rfl rfl)
  obtain ⟨S, hreach, hwaits⟩ : ∃ S : System ℕ UInt32, Reachable id S ∧ WaitsFor id S 0 1 :=
    ⟨_, hblocked, 2, rfl, 2, Finset.mem_insert_self _ _, rfl⟩
  refine ⟨S, hreach, hwaits, fun hback => ?_⟩
  refine (lock_order_no_deadlock id S hreach).2.2.2 1 ![0, 1] fun i => ?_
  match i with
  | 0 => exact hwaits
  | 1 => exact hback

end Mcsos.Sync
