import Mcsos.Vmm.Refinement

/-!
# Addresses in entries

An entry has room for the bits 12 to 51 of an address.  `vmm_map_page` and `get_or_alloc_next_table`
check that an address is aligned and then mask it, so an address from `2 ^ 52` on becomes another
one without an error.

Here the tables may hold anything, and the frames of the allocator may have any address; only their
pages are not in use yet (`Fresh`).  A call of `vmm_map_page` goes down over the entries that are
present, and from the first one that is not (`way`) it makes new tables, one below the other.  What
was present stays as it is (`descend_keeps`).  So the way of a later `vmm_query_page` leads over the
same entries, and then over the new ones, if these point to where the tables are.
-/

namespace Mcsos.Vmm

open Act Radix

variable {π : Type} {space : Space π} {mem mem' : π → Page} {s s' : State π} {root t pt : π}
  {i j : Fin 512} {is l : List (Fin 512)} {v w p fl : UInt64} {k : ℕ} {failed : Prop}

/-! ## One level -/

/-- The pages of the frames that the allocator will return are in no use as a table, and are
different. -/
structure Fresh (space : Space π) (s : State π) : Prop where
  unused : ∀ root, tableFromPhys space space.rootPaddr = some root → ∀ k, s.calls ≤ k → ∀ u,
    newPage space k = some u → ∀ l : List (Fin 512), l.length ≤ 3 →
    tableAt (child space) root s.mem l ≠ some u
  distinct : ∀ j k, s.calls ≤ j → j < k → ∀ u, newPage space j = some u → newPage space k ≠ some u

section Level

variable [DecidableEq π]

theorem getOrAllocNextTable_of_blocked (hpresent : s.mem t i &&& ptePresent ≠ 0)
    (hnone : child space (s.mem t i) = none) :
    ∃ e, getOrAllocNextTable space t i s = (.error e, s) := by
  unfold getOrAllocNextTable
  rw [get_bind_apply, if_pos hpresent]
  by_cases hhuge : s.mem t i &&& pteHuge ≠ 0
  · exact ⟨.errExists, failIf_bind_of_pos hhuge _ s⟩
  · rw [child, if_pos ⟨hpresent, not_not.mp hhuge⟩] at hnone
    rw [failIf_bind_of_not hhuge, hnone]
    exact ⟨.errInval, rfl⟩

/-- A frame that is not accepted. -/
theorem getOrAllocNextTable_of_refused (habsent : s.mem t i &&& ptePresent = 0)
    (hnone : newPage space s.calls = none) :
    ∃ e, getOrAllocNextTable space t i s = (.error e, { s with calls := s.calls + 1 }) := by
  unfold getOrAllocNextTable allocNextTable
  rw [get_bind_apply, if_neg (not_not.mpr habsent), get_bind_apply, modify_bind_apply]
  unfold newPage at hnone
  split_ifs at hnone with hbad
  · exact ⟨.errNomem, failIf_bind_of_pos hbad _ _⟩
  · rw [failIf_bind_of_not hbad, hnone]
    exact ⟨.errInval, rfl⟩

end Level

/-! ## The way down -/

/-- Where a walk over entries that are present ends. -/
inductive Way (π : Type) where
  | found (table : π)
  | blocked
  | missing (table : π) (index : Fin 512) (below : List (Fin 512))

/-- The walk over the indices `is` from the table `t` on. -/
def way (space : Space π) (mem : π → Page) : π → List (Fin 512) → Way π
  | t, [] => .found t
  | t, i :: is =>
      if mem t i &&& ptePresent = 0 then .missing t i is
      else
        match child space (mem t i) with
        | some u => way space mem u is
        | none => .blocked

/-- The indices of the upper levels, the first one first. -/
def levels (vaddr : UInt64) : List (Fin 512) := [idxPml4 vaddr, idxPdpt vaddr, idxPd vaddr]

/-- The walk for an address from the root on. -/
def wayOf (space : Space π) (mem : π → Page) (vaddr : UInt64) : Way π :=
  match tableFromPhys space space.rootPaddr with
  | some root => way space mem root (levels vaddr)
  | none => .blocked

theorem wayOf_eq (hroot : tableFromPhys space space.rootPaddr = some root) :
    wayOf space mem v = way space mem root (levels v) := by
  rw [wayOf, hroot]

theorem way_of_absent (habsent : mem t i &&& ptePresent = 0) (is : List (Fin 512)) :
    way space mem t (i :: is) = .missing t i is := if_pos habsent

theorem way_of_child {u : π} (hu : child space (mem t i) = some u) (is : List (Fin 512)) :
    way space mem t (i :: is) = way space mem u is := by
  rw [way, if_neg (child_of_present hu).1, hu]

theorem way_of_blocked (hpresent : mem t i &&& ptePresent ≠ 0)
    (hnone : child space (mem t i) = none) (is : List (Fin 512)) :
    way space mem t (i :: is) = .blocked := by
  rw [way, if_neg hpresent, hnone]

/-- The cases of one level. -/
theorem entry_cases (space : Space π) (e : UInt64) :
    e &&& ptePresent = 0 ∨ (e &&& ptePresent ≠ 0 ∧ child space e = none) ∨
      ∃ u, child space e = some u := by
  by_cases hpresent : e &&& ptePresent = 0
  · exact Or.inl hpresent
  · cases hchild : child space e with
    | none => exact Or.inr (Or.inl ⟨hpresent, rfl⟩)
    | some u => exact Or.inr (Or.inr ⟨u, rfl⟩)

/-- What is present stays as it is. -/
def Extends (mem mem' : π → Page) : Prop := ∀ w j, mem w j &&& ptePresent ≠ 0 → mem' w j = mem w j

/-- A walk that arrives still arrives. -/
theorem way_mono (hsame : Extends mem mem') :
    ∀ (is : List (Fin 512)) (t : π), way space mem t is = .found pt →
      way space mem' t is = .found pt := by
  intro is
  induction is with
  | nil => exact fun t h => h
  | cons i is ih =>
      intro t h
      rcases entry_cases space (mem t i) with habsent | ⟨hpresent, hnone⟩ | ⟨u, hu⟩
      · rw [way_of_absent habsent] at h
        cases h
      · rw [way_of_blocked hpresent hnone] at h
        cases h
      · rw [way_of_child hu] at h
        have hu' : child space (mem' t i) = some u := by
          rw [hsame t i (child_of_present hu).1, hu]
        rw [way_of_child hu']
        exact ih u h

section Descend

variable [DecidableEq π]

/-- The calls of `get_or_alloc_next_table` for the indices `is`. -/
def descend (space : Space π) : List (Fin 512) → π → Act (State π) Err π
  | [], t => pure t
  | i :: is, t => do
      let u ← getOrAllocNextTable space t i
      descend space is u

theorem descend_of_child {u : π} (hu : child space (s.mem t i) = some u) (is : List (Fin 512)) :
    descend space (i :: is) t s = descend space is u s :=
  bind_of_ok (getOrAllocNextTable_of_present (child_of_present hu).1 hu) _

theorem descend_of_new (habsent : s.mem t i &&& ptePresent = 0) {u : π}
    (hu : newPage space s.calls = some u) (is : List (Fin 512)) :
    descend space (i :: is) t s = descend space is u (install space s t i u) :=
  bind_of_ok (getOrAllocNextTable_of_new habsent hu) _

theorem descend_of_refused (habsent : s.mem t i &&& ptePresent = 0)
    (hnone : newPage space s.calls = none) (is : List (Fin 512)) :
    ∃ e, descend space (i :: is) t s = (.error e, { s with calls := s.calls + 1 }) := by
  obtain ⟨e, hrun⟩ := getOrAllocNextTable_of_refused habsent hnone
  exact ⟨e, bind_of_error hrun _⟩

/-- Over the entries that are present the calls go as the walk does. -/
theorem descend_of_way (space : Space π) (s : State π) (is : List (Fin 512)) (t : π) :
    match way space s.mem t is with
    | .found pt => descend space is t s = (.ok pt, s)
    | .blocked => ∃ e, descend space is t s = (.error e, s)
    | .missing t' i below => descend space is t s = descend space (i :: below) t' s ∧
        s.mem t' i &&& ptePresent = 0 := by
  induction is generalizing t with
  | nil => rfl
  | cons i is ih =>
      rcases entry_cases space (s.mem t i) with habsent | ⟨hpresent, hnone⟩ | ⟨u, hu⟩
      · rw [way_of_absent habsent]
        exact ⟨rfl, habsent⟩
      · rw [way_of_blocked hpresent hnone]
        obtain ⟨e, hrun⟩ := getOrAllocNextTable_of_blocked hpresent hnone
        exact ⟨e, bind_of_error hrun _⟩
      · rw [way_of_child hu, descend_of_child hu]
        exact ih u

/-- The allocator does not return the page `t` any more. -/
def Old (space : Space π) (s : State π) (t : π) : Prop :=
  ∀ k, s.calls ≤ k → newPage space k ≠ some t

theorem Old.install {u r : π} (hold : Old space s r) (t : π) (i : Fin 512) :
    Old space (install space s t i u) r := fun k hk => hold k (Nat.le_of_succ_le hk)

/-- What is present in an old table stays as it is. -/
def Keeps (space : Space π) (s : State π) (mem' : π → Page) : Prop :=
  ∀ w j, Old space s w → s.mem w j &&& ptePresent ≠ 0 → mem' w j = s.mem w j

theorem install_keeps (habsent : s.mem t i &&& ptePresent = 0) {u : π}
    (hu : newPage space s.calls = some u) :
    Keeps space s (install space s t i u).mem := by
  intro w j hold hpresent
  have hwu : w ≠ u := fun heq => hold s.calls (Nat.le_refl _) (heq ▸ hu)
  show setEntry (Function.update s.mem u zeroPage) t i _ w j = s.mem w j
  by_cases hwt : w = t
  · subst hwt
    have hji : j ≠ i := fun heq => hpresent (heq ▸ habsent)
    rw [setEntry_of_ne_index hji, Function.update_of_ne hwu]
  · rw [setEntry_of_ne_table hwt, Function.update_of_ne hwu]

theorem descend_keeps (is : List (Fin 512)) :
    ∀ (t : π) (s : State π), Keeps space s (descend space is t s).2.mem := by
  induction is with
  | nil => exact fun t s w j _ _ => rfl
  | cons i is ih =>
      intro t s
      rcases entry_cases space (s.mem t i) with habsent | ⟨hpresent, hnone⟩ | ⟨u, hu⟩
      · cases hnew : newPage space s.calls with
        | none =>
            obtain ⟨e, hrun⟩ := descend_of_refused habsent hnew is
            rw [hrun]
            exact fun w j _ _ => rfl
        | some u =>
            rw [descend_of_new habsent hnew]
            intro w j hold hpresent
            have hfirst := install_keeps habsent hnew w j hold hpresent
            have hrest := ih u (install space s t i u) w j (hold.install t i) (hfirst ▸ hpresent)
            exact hrest.trans hfirst
      · obtain ⟨e, hrun⟩ := getOrAllocNextTable_of_blocked hpresent hnone
        have hrun' : descend space (i :: is) t s = (.error e, s) := bind_of_error hrun _
        rw [hrun']
        exact fun w j _ _ => rfl
      · rw [descend_of_child hu]
        exact ih u s

omit [DecidableEq π] in
/-- The way to a missing entry goes over tables that stay, and then on from there. -/
theorem way_of_missing (hfresh : Fresh space s)
    (hroot : tableFromPhys space space.rootPaddr = some root)
    (hkeeps : Keeps space s mem') {below : List (Fin 512)} (is : List (Fin 512)) :
    ∀ (l : List (Fin 512)) (t : π), tableAt (child space) root s.mem l = some t →
      l.length + is.length ≤ 3 → ∀ t', way space s.mem t is = .missing t' i below →
        way space mem' t is = way space mem' t' (i :: below) ∧ Old space s t' := by
  induction is with
  | nil =>
      intro l t _ _ t' hway
      cases hway
  | cons i' is ih =>
      intro l t htable hlength t' hway
      rw [List.length_cons] at hlength
      have hold : Old space s t :=
        fun k hk hu => hfresh.unused root hroot k hk t hu l (by omega) htable
      rcases entry_cases space (s.mem t i') with habsent | ⟨hpresent, hnone⟩ | ⟨u, hu⟩
      · rw [way_of_absent habsent] at hway
        cases hway
        exact ⟨rfl, hold⟩
      · rw [way_of_blocked hpresent hnone] at hway
        cases hway
      · have hu' : child space (mem' t i') = some u := by
          rw [hkeeps t i' hold (child_of_present hu).1, hu]
        have hnext : tableAt (child space) root s.mem (i' :: l) = some u := by
          rw [tableAt, htable, Option.bind_some, hu]
        rw [way_of_child hu] at hway
        rw [way_of_child hu']
        exact ih (i' :: l) u hnext (by rw [List.length_cons]; omega) t' hway

end Descend

/-! ## New tables -/

/-- The frames for missing tables, from call `k` of the allocator on, are linked below the table
`t`, each under its own address.  At the first frame that is not accepted the call has failed, and
nothing is linked. -/
def Linked (space : Space π) (failed : Prop) (mem : π → Page) : List (Fin 512) → π → ℕ → Prop
  | [], _, _ => True
  | i :: is, t, k =>
      match newPage space k with
      | some u => mem t i &&& ptePresent ≠ 0 ∧ mem t i &&& pteAddrMask = space.allocFrame k ∧
          Linked space failed mem is u (k + 1)
      | none => failed ∧ mem t i &&& ptePresent = 0

/-- The frames for missing tables are below `2 ^ 52`, as far as they are accepted, and so is then
the address `p` of the page. -/
def Representable (space : Space π) (p : UInt64) : List (Fin 512) → ℕ → Prop
  | [], _ => p.toNat < 2 ^ 52
  | _ :: is, k => (newPage space k).isSome → (space.allocFrame k).toNat < 2 ^ 52 ∧
      Representable space p is (k + 1)

section frames

variable {space : Space π} {failed : Prop} {mem : π → Page} {p : UInt64} {i : Fin 512}
  {is : List (Fin 512)} {t u : π} {k : ℕ}

theorem linked_of_refused (hnew : newPage space k = none) :
    Linked space failed mem (i :: is) t k ↔ failed ∧ mem t i &&& ptePresent = 0 := by
  rw [Linked, hnew]

/-- The entry that is written for a new table has the address of its frame if that is below
`2 ^ 52`. -/
theorem linked_of_new (hnew : newPage space k = some u)
    (hentry : mem t i = tableEntry (space.allocFrame k)) :
    Linked space failed mem (i :: is) t k ↔
      (space.allocFrame k).toNat < 2 ^ 52 ∧ Linked space failed mem is u (k + 1) := by
  rw [Linked, hnew]
  dsimp only
  rw [hentry, tableEntry_masked, masked_eq_iff (isAligned4k_of_newPage hnew).1]
  exact and_iff_right (tableEntry_present _)

theorem representable_of_refused (hnew : newPage space k = none) :
    Representable space p (i :: is) k := by
  rw [Representable, hnew]
  exact fun hsome => absurd hsome Bool.false_ne_true

theorem representable_of_new (hnew : newPage space k = some u) :
    Representable space p (i :: is) k ↔
      (space.allocFrame k).toNat < 2 ^ 52 ∧ Representable space p is (k + 1) := by
  rw [Representable, hnew]
  exact forall_prop_of_true rfl

end frames

variable [DecidableEq π]

/-- The entry for a new table stays while the tables below are made. -/
theorem descend_entry {space : Space π} {s : State π} {t : π} (hold : Old space s t)
    (i : Fin 512) (u : π) (is : List (Fin 512)) :
    (descend space is u (install space s t i u)).2.mem t i =
      tableEntry (space.allocFrame s.calls) := by
  have hself : (install space s t i u).mem t i = tableEntry (space.allocFrame s.calls) :=
    setEntry_self
  rw [descend_keeps is u _ t i (hold.install t i) (hself ▸ tableEntry_present _), hself]

/-- What the calls do below an entry that is missing. -/
inductive Made (space : Space π) (p : UInt64) (j : Fin 512) (is : List (Fin 512)) (t : π) (k : ℕ) :
    Except Err π × State π → Prop where
  | refused {e : Err} {s' : State π}
      (hiff : Linked space True s'.mem is t k ↔ Representable space p is k) :
      Made space p j is t k (.error e, s')
  | made {pt : π} {s' : State π} (low : Prop) (hleaf : s'.mem pt j &&& ptePresent = 0)
      (hlinked : ∀ mem', Extends s'.mem mem' → (Linked space False mem' is t k ↔ low))
      (hiff : low ∧ p.toNat < 2 ^ 52 ↔ Representable space p is k)
      (hway : low → way space s'.mem t is = .found pt) : Made space p j is t k (.ok pt, s')

theorem descend_made (p : UInt64) (j : Fin 512) (is : List (Fin 512)) :
    ∀ (t : π) (s : State π), Old space s t →
      (∀ k k', s.calls ≤ k → k < k' → ∀ u, newPage space k = some u → newPage space k' ≠ some u) →
      s.mem t (is.headD j) &&& ptePresent = 0 →
      Made space p j is t s.calls (descend space is t s) := by
  induction is with
  | nil =>
      exact fun t s _ _ habsent =>
        .made True habsent (fun _ _ => Iff.rfl) (true_and _).to_iff fun _ => rfl
  | cons i is ih =>
      intro t s hold hdistinct habsent
      rw [List.headD_cons] at habsent
      cases hnew : newPage space s.calls with
      | none =>
          obtain ⟨e, hrun⟩ := descend_of_refused habsent hnew is
          rw [hrun]
          exact .refused (iff_of_true ((linked_of_refused hnew).mpr ⟨trivial, habsent⟩)
            (representable_of_refused hnew))
      | some u =>
          obtain ⟨haligned, hfrom⟩ := isAligned4k_of_newPage hnew
          have htu : u ≠ t := fun heq => hold s.calls (Nat.le_refl _) (heq ▸ hnew)
          have hzero : (install space s t i u).mem u = zeroPage :=
            (setEntry_of_ne_table htu).trans (Function.update_self ..)
          have hrest :=
            ih u (install space s t i u) (fun k hk => hdistinct s.calls k (Nat.le_refl _) hk u hnew)
            (fun k k' hk => hdistinct k k' (Nat.le_of_succ_le hk))
            (by rw [hzero]; exact zeroPage_absent _)
          have hentry := descend_entry hold i u is
          rw [descend_of_new habsent hnew]
          generalize descend space is u (install space s t i u) = x at hrest hentry ⊢
          cases hrest with
          | refused hiff =>
              refine .refused ?_
              rw [linked_of_new hnew hentry, representable_of_new hnew]
              exact and_congr_right fun _ => hiff
          | made low hleaf hbelow hiff hway =>
              refine .made ((space.allocFrame s.calls).toNat < 2 ^ 52 ∧ low) hleaf
                (fun mem' hext => ?_) (and_assoc.trans ?_) fun h => ?_
              · have hentry' := (hext t i (hentry ▸ tableEntry_present _)).trans hentry
                rw [linked_of_new hnew hentry']
                exact and_congr_right fun _ => hbelow mem' hext
              · rw [representable_of_new hnew]
                exact and_congr_right fun _ => hiff
              · have hchild := child_tableEntry haligned h.1 (tableFromPhys_eq_some hfrom).2
                rw [way_of_child (hentry ▸ hchild)]
                exact hway h.2

/-! ## The calls -/

/-- The end of `vmm_map_page`, after the tables are there. -/
def writePage (vaddr paddr flags : UInt64) (pt : π) : Act (State π) Err Unit := do
  let s ← get
  failIf (s.mem pt (idxPt vaddr) &&& ptePresent ≠ 0) .errExists
  modify fun s => s.set pt (idxPt vaddr) (pageEntry paddr flags)

theorem mapPage_eq (hv : Valid v) (hp : isAligned4k p = true) :
    mapPage space v p fl = nonNull (tableFromPhys space space.rootPaddr) .errInval >>= fun root =>
      descend space (levels v) root >>= writePage v p fl := by
  have hgood : ¬ (isCanonical v = false ∨ isAligned4k v = false ∨ isAligned4k p = false) := by
    simp [hv.1, hv.2, hp]
  unfold mapPage
  rw [failIf_bind_of_not hgood]
  refine congrArg _ (funext fun root => ?_)
  simp only [levels, descend, bind_assoc, pure_bind]
  rfl

theorem mapPage_of_descend (s : State π) (fl : UInt64) (hv : Valid v) (hp : isAligned4k p = true)
    (hroot : tableFromPhys space space.rootPaddr = some root) :
    mapPage space v p fl s = (descend space (levels v) root >>= writePage v p fl) s := by
  rw [mapPage_eq hv hp, hroot]
  rfl

theorem writePage_of_absent (habsent : s.mem pt (idxPt v) &&& ptePresent = 0) :
    writePage v p fl pt s = (.ok (), s.set pt (idxPt v) (pageEntry p fl)) := by
  unfold writePage
  rw [get_bind_apply, failIf_bind_of_not (not_not.mpr habsent)]
  rfl

theorem writePage_of_present (hpresent : s.mem pt (idxPt v) &&& ptePresent ≠ 0) :
    writePage v p fl pt s = (.error .errExists, s) := by
  unfold writePage
  rw [get_bind_apply, failIf_bind_of_pos hpresent]

/-- The entry of the page does not change any entry that is present. -/
theorem set_extends (habsent : s.mem pt i &&& ptePresent = 0) (e : UInt64) :
    Extends s.mem (s.set pt i e).mem := by
  intro w j hpresent
  rw [State.set_mem]
  by_cases hw : w = pt
  · subst hw
    have hji : j ≠ i := fun heq => hpresent (heq ▸ habsent)
    rw [setEntry_of_ne_index hji]
  · rw [setEntry_of_ne_table hw]

omit [DecidableEq π] in
theorem child_of_way (h : way space mem t (i :: is) = .found pt) :
    ∃ u, child space (mem t i) = some u ∧ way space mem u is = .found pt := by
  rcases entry_cases space (mem t i) with habsent | ⟨hpresent, hnone⟩ | ⟨u, hu⟩
  · rw [way_of_absent habsent] at h
    cases h
  · rw [way_of_blocked hpresent hnone] at h
    cases h
  · rw [way_of_child hu] at h
    exact ⟨u, hu, h⟩

omit [DecidableEq π] in
/-- A query reads the entry at the end of the walk. -/
theorem queryPage_of_way (hv : Valid v) (hroot : tableFromPhys space space.rootPaddr = some root)
    (hway : way space s.mem root (levels v) = .found pt)
    (hpresent : s.mem pt (idxPt v) &&& ptePresent ≠ 0) :
    queryPage space v s =
      (.ok ⟨v, s.mem pt (idxPt v) &&& pteAddrMask, s.mem pt (idxPt v) &&& ~~~ pteAddrMask⟩, s) := by
  have hgood : ¬ (isCanonical v = false ∨ isAligned4k v = false) := by
    simp [hv.1, hv.2]
  obtain ⟨pdpt, hpdpt, hway⟩ := child_of_way hway
  obtain ⟨pd, hpd, hway⟩ := child_of_way hway
  obtain ⟨pt', hpt, hway⟩ := child_of_way hway
  cases hway
  have hwalk : walk space v s = (.ok pt, s) := by
    unfold walk
    rw [failIf_bind_of_not hgood, hroot, bind_of_ok (nonNull_some s),
      bind_of_ok (nextTable_of_child hpdpt), bind_of_ok (nextTable_of_child hpd)]
    exact nextTable_of_child hpt
  unfold queryPage
  rw [bind_of_ok hwalk, get_bind_apply, failIf_bind_of_not hpresent]
  rfl

/-! ## No mapping elsewhere -/

/-- What is said about a call of `vmm_map_page`: a page that it maps is found at its own address,
and the frames that it takes for tables are linked under theirs, or it fails. -/
structure Faithful (space : Space π) (s : State π) (v p fl : UInt64) : Prop where
  page : (mapPage space v p fl s).1 = .ok () →
    ∃ m, (queryPage space v (mapPage space v p fl s).2).1 = .ok m ∧ m.paddr = p
  tables : ∀ t i below, wayOf space s.mem v = .missing t i below →
    Linked space ((mapPage space v p fl s).1 ≠ .ok ()) (mapPage space v p fl s).2.mem
      (i :: below) t s.calls

/-- The addresses that the call would write to entries are below `2 ^ 52`. -/
def Fits (space : Space π) (s : State π) (v p : UInt64) : Prop :=
  match wayOf space s.mem v with
  | .found pt => s.mem pt (idxPt v) &&& ptePresent = 0 → p.toNat < 2 ^ 52
  | .blocked => True
  | .missing _ i below => Representable space p (i :: below) s.calls

/-- The page is found where it was mapped to. -/
theorem query_of_mapped (fl : UInt64) (hv : Valid v) (hp : isAligned4k p = true)
    (hroot : tableFromPhys space space.rootPaddr = some root)
    (hway : way space s.mem root (levels v) = .found pt)
    (habsent : s.mem pt (idxPt v) &&& ptePresent = 0) :
    (∃ m, (queryPage space v (s.set pt (idxPt v) (pageEntry p fl))).1 = .ok m ∧ m.paddr = p) ↔
      p.toNat < 2 ^ 52 := by
  have hentry : (s.set pt (idxPt v) (pageEntry p fl)).mem pt (idxPt v) = pageEntry p fl :=
    setEntry_self
  have hpresent : (s.set pt (idxPt v) (pageEntry p fl)).mem pt (idxPt v) &&& ptePresent ≠ 0 := by
    rw [hentry]
    exact pageEntry_present p fl
  have hquery :=
    queryPage_of_way hv hroot (way_mono (set_extends habsent (pageEntry p fl)) _ _ hway) hpresent
  rw [hentry, pageEntry_addr] at hquery
  rw [hquery, ← masked_eq_iff hp]
  constructor
  · rintro ⟨m, hm, hpaddr⟩
    rw [← Except.ok.inj hm] at hpaddr
    exact hpaddr
  · exact fun hmask => ⟨_, rfl, hmask⟩

/-- Nothing is linked or mapped. -/
theorem faithful_of_blocked (hway : wayOf space s.mem v = .blocked) {e : Err}
    (hrun : mapPage space v p fl s = (.error e, s)) :
    Faithful space s v p fl ↔ Fits space s v p := by
  refine iff_of_true ⟨fun hok => ?_, fun t i below hmissing => ?_⟩ ?_
  · rw [hrun] at hok
    cases hok
  · rw [hway] at hmissing
    cases hmissing
  · rw [Fits, hway]
    trivial

/-- All tables are there. -/
theorem faithful_of_found (hv : Valid v) (hp : isAligned4k p = true)
    (hroot : tableFromPhys space space.rootPaddr = some root)
    (hway : way space s.mem root (levels v) = .found pt) :
    Faithful space s v p fl ↔ Fits space s v p := by
  have hwayOf : wayOf space s.mem v = .found pt := (wayOf_eq hroot).trans hway
  have hdescend := descend_of_way space s (levels v) root
  rw [hway] at hdescend
  have hmap : mapPage space v p fl s = writePage v p fl pt s :=
    (mapPage_of_descend s fl hv hp hroot).trans (bind_of_ok hdescend _)
  have hnone : ∀ t i below, wayOf space s.mem v = .missing t i below →
      Linked space ((mapPage space v p fl s).1 ≠ .ok ()) (mapPage space v p fl s).2.mem
        (i :: below) t s.calls := by
    intro t i below hmissing
    rw [hwayOf] at hmissing
    cases hmissing
  rw [Fits, hwayOf]
  dsimp only
  by_cases habsent : s.mem pt (idxPt v) &&& ptePresent = 0
  · have hrun := hmap.trans (writePage_of_absent habsent)
    have hquery := query_of_mapped fl hv hp hroot hway habsent
    constructor
    · intro hfaithful _
      have hpage := hfaithful.page (by rw [hrun])
      rw [hrun] at hpage
      exact hquery.mp hpage
    · intro hfits
      refine ⟨fun _ => ?_, hnone⟩
      rw [hrun]
      exact hquery.mpr (hfits habsent)
  · have hrun := hmap.trans (writePage_of_present habsent)
    refine iff_of_true ⟨fun hok => ?_, hnone⟩ fun h => absurd h habsent
    rw [hrun] at hok
    cases hok

/-- Some tables have to be made. -/
theorem faithful_of_missing (hfresh : Fresh space s) (hv : Valid v) (hp : isAligned4k p = true)
    (hroot : tableFromPhys space space.rootPaddr = some root) {below : List (Fin 512)}
    (hway : way space s.mem root (levels v) = .missing t i below) :
    Faithful space s v p fl ↔ Fits space s v p := by
  have hwayOf : wayOf space s.mem v = .missing t i below := (wayOf_eq hroot).trans hway
  have hdescend := descend_of_way space s (levels v) root
  rw [hway] at hdescend
  obtain ⟨hdown, habsent⟩ := hdescend
  obtain ⟨hafter, hold⟩ :=
    way_of_missing hfresh hroot (descend_keeps (levels v) root s) (levels v) [] root rfl
      (Nat.le_refl 3) t hway
  have hmade := descend_made p (idxPt v) (i :: below) t s hold hfresh.distinct habsent
  have hmap := mapPage_of_descend s fl hv hp hroot
  have hfaithful : Faithful space s v p fl ↔
      ((mapPage space v p fl s).1 = .ok () →
        ∃ m, (queryPage space v (mapPage space v p fl s).2).1 = .ok m ∧ m.paddr = p) ∧
      Linked space ((mapPage space v p fl s).1 ≠ .ok ()) (mapPage space v p fl s).2.mem
        (i :: below) t s.calls := by
    refine ⟨fun h => ⟨h.page, h.tables t i below hwayOf⟩, fun h =>
      ⟨h.1, fun t' i' below' hmissing => ?_⟩⟩
    rw [hwayOf] at hmissing
    cases hmissing
    exact h.2
  rw [hfaithful, Fits, hwayOf]
  dsimp only
  rw [bind_apply, hdown] at hmap
  rw [hdown] at hafter
  generalize descend space (i :: below) t s = x at hmade hmap hafter
  cases hmade with
  | @refused e s' hiff =>
      have hrun : mapPage space v p fl s = (.error e, s') := hmap
      have hfailed : ((.error e : Except Err Unit) ≠ .ok ()) = True := eq_true (by simp)
      rw [hrun, hfailed, ← hiff]
      exact and_iff_right fun hok => by cases hok
  | @made pt s' low hleaf hlinked hiff hway' =>
      have hrun : mapPage space v p fl s = (.ok (), s'.set pt (idxPt v) (pageEntry p fl)) :=
        hmap.trans (writePage_of_absent hleaf)
      have hfailed : ((.ok () : Except Err Unit) ≠ .ok ()) = False := eq_false (not_not.mpr rfl)
      rw [hrun, hfailed, hlinked _ (set_extends hleaf (pageEntry p fl)), ← hiff, and_comm]
      -- when the new tables are linked right, the walk leads over them
      refine and_congr_right fun hlow => (forall_prop_of_true rfl).trans ?_
      exact query_of_mapped fl hv hp hroot (hafter.trans (hway' hlow)) hleaf

/-- For tables with any entries and frames of any address: a call of `vmm_map_page` maps a page to
its own address, and links new tables under theirs, just when these addresses are below `2 ^ 52`. -/
theorem mapPage_faithful_iff (hfresh : Fresh space s) (hv : Valid v) (hp : isAligned4k p = true)
    (fl : UInt64) :
    Faithful space s v p fl ↔ Fits space s v p := by
  cases hroot : tableFromPhys space space.rootPaddr with
  | none =>
      have hway : wayOf space s.mem v = .blocked := by rw [wayOf, hroot]
      have hrun : mapPage space v p fl s = (.error .errInval, s) := by
        rw [mapPage_eq hv hp, hroot]
        rfl
      exact faithful_of_blocked hway hrun
  | some root =>
      cases hway : way space s.mem root (levels v) with
      | found pt => exact faithful_of_found hv hp hroot hway
      | blocked =>
          have hdescend := descend_of_way space s (levels v) root
          rw [hway] at hdescend
          obtain ⟨e, hrun⟩ := hdescend
          exact faithful_of_blocked ((wayOf_eq hroot).trans hway)
            ((mapPage_of_descend s fl hv hp hroot).trans (bind_of_error hrun _))
      | missing t i below => exact faithful_of_missing hfresh hv hp hroot hway

omit [DecidableEq π] in
/-- With frames below `2 ^ 52` that are not used twice, as in `page_tables_refine_map`, all states
are such. -/
theorem fresh_of_trusted (ht : Trusted space) (h : TablesOk space root s) : Fresh space s := by
  have hframe : ∀ {k u}, newPage space k = some u →
      space.allocFrame k ≠ invalidPhys ∧ space.physToVirt (space.allocFrame k) = some u := by
    intro k u hu
    refine ⟨fun hinvalid => ?_, (tableFromPhys_eq_some (isAligned4k_of_newPage hu).2).2⟩
    rw [newPage, if_pos (Or.inl hinvalid)] at hu
    cases hu
  constructor
  · intro root' hroot' k hk u hu
    obtain rfl := Option.some.inj (h.rootTable.symm.trans hroot')
    obtain ⟨hvalid, hmapped⟩ := hframe hu
    exact h.fresh ht hk hvalid hmapped
  · intro j k hj hjk u hju hku
    obtain ⟨hjvalid, hjmapped⟩ := hframe hju
    obtain ⟨hkvalid, hkmapped⟩ := hframe hku
    rcases ht.alloc k with hinvalid | ⟨-, -, -, hnew⟩
    · exact hkvalid hinvalid
    · exact hnew j hjk (ht.injective _ _ u (ht.frame hjvalid) (ht.frame hkvalid) hjmapped hkmapped)

theorem smallSpace_fresh : Fresh smallSpace ⟨fun _ => zeroPage, 0⟩ :=
  fresh_of_trusted smallSpace_trusted
    (holds_init (rfl : tableFromPhys smallSpace 0x1000 = some 0x1000) (fun _ => zeroPage) rfl).ok

theorem mapPage_faithful_iff_small :
    Faithful smallSpace ⟨fun _ => zeroPage, 0⟩ 0x400000 0x5000 2 ∧
      ¬ Fits smallSpace ⟨fun _ => zeroPage, 0⟩ 0x400000 0x10000000000000 := by
  have hpage : (0x5000 : UInt64).toNat < 2 ^ 52 := by decide
  have hlow : Fits smallSpace ⟨fun _ => zeroPage, 0⟩ 0x400000 0x5000 :=
    fun _ => ⟨by decide, fun _ => ⟨by decide, fun _ => ⟨by decide, hpage⟩⟩⟩
  refine ⟨(mapPage_faithful_iff smallSpace_fresh (by decide) (by decide) 2).mpr hlow,
    fun hhigh => ?_⟩
  have hpage' : (0x10000000000000 : UInt64).toNat < 2 ^ 52 := (((hhigh rfl).2 rfl).2 rfl).2
  exact absurd hpage' (by decide)

/-- The first address that an entry has no room for is mapped to the frame 0. -/
theorem high_page_redirected :
    Fresh smallSpace ⟨fun _ => zeroPage, 0⟩ ∧ Valid 0x400000 ∧ isAligned4k 0x10000000000000 = true ∧
      ¬ Faithful smallSpace ⟨fun _ => zeroPage, 0⟩ 0x400000 0x10000000000000 2 := by
  refine ⟨smallSpace_fresh, by decide, by decide, fun hfaithful => ?_⟩
  obtain ⟨m, hm, hpaddr⟩ := hfaithful.page rfl
  have hquery : (queryPage smallSpace 0x400000
      (mapPage smallSpace 0x400000 0x10000000000000 2 ⟨fun _ => zeroPage, 0⟩).2).1 =
        .ok ⟨0x400000, 0, 3⟩ := rfl
  obtain rfl := Except.ok.inj (hquery.symm.trans hm)
  exact absurd hpaddr (by decide)

end Mcsos.Vmm
