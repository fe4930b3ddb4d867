import Mcsos.Vmm.Tables
import Mathlib.Logic.Relation

/-!
# Page tables as a map

Seen through `vmm_query_page`, the page tables are a map from virtual addresses to physical
addresses with flags.  The tables form a tree (`TablesOk`): every table is reached by one path of
indices only, so an entry belongs to one address, and a new table is a frame that was not in the
tree before.

`getOrAllocNextTable_cases` is the step lemma for one level: the tree grows or stays, and the map
is the same.  `page_tables_refine_map` is about any sequence of calls.
-/

namespace Mcsos.Vmm

open Act Radix Relation

variable {π : Type} [DecidableEq π] {space : Space π} {s s' s'' : State π} {root t : π}
  {l : List (Fin 512)} {i : Fin 512} {v w p fl : UInt64}

/-! ## What is assumed of the callbacks -/

/-- A frame that tables can be in. -/
def Frame (space : Space π) (f : UInt64) : Prop :=
  isAligned4k f = true ∧ (f.toNat < 2 ^ 52 ∨ f = space.rootPaddr)

/-- Frames are mapped to different pages, and the allocator returns frames that are in no use as a
table: not the root, and none that it returned before. -/
structure Trusted (space : Space π) : Prop where
  mapped : ∀ f, Frame space f → ∃ t, space.physToVirt f = some t
  injective : ∀ f g t, Frame space f → Frame space g → space.physToVirt f = some t →
    space.physToVirt g = some t → f = g
  alloc : ∀ k, space.allocFrame k = invalidPhys ∨
    (isAligned4k (space.allocFrame k) = true ∧ (space.allocFrame k).toNat < 2 ^ 52 ∧
      space.allocFrame k ≠ space.rootPaddr ∧ ∀ j < k, space.allocFrame j ≠ space.allocFrame k)

/-! ## The abstract map -/

/-- Virtual addresses with their physical address and flags. -/
abbrev PageMap : Type := UInt64 → Option (UInt64 × UInt64)

namespace PageMap

/-- The page at `v` is mapped to `p`. -/
def map (M : PageMap) (v p fl : UInt64) : PageMap :=
  Function.update M v (some (p &&& pteAddrMask, ptePresent ||| (fl &&& allowed)))

/-- The page at `v` is unmapped. -/
def unmap (M : PageMap) (v : UInt64) : PageMap := Function.update M v none

/-- The answer to a query. -/
def answer (M : PageMap) (v : UInt64) : Except Err Mapping :=
  if Valid v then
    match M v with
    | some (p, fl) => .ok ⟨v, p, fl⟩
    | none => .error .errNotFound
  else .error .errInval

end PageMap

/-- A call of the interface. -/
inductive Call where
  | map (v p fl : UInt64)
  | unmap (v : UInt64)
  | query (v : UInt64)

/-- What a call returns. -/
inductive Reply where
  | status (r : Except Err Unit)
  | mapping (r : Except Err Mapping)

/-- A call on the page tables. -/
def exec (space : Space π) : Call → State π → Reply × State π
  | .map v p fl, s => (.status (mapPage space v p fl s).1, (mapPage space v p fl s).2)
  | .unmap v, s => (.status (unmapPage space v s).1, (unmapPage space v s).2)
  | .query v, s => (.mapping (queryPage space v s).1, (queryPage space v s).2)

/-- The replies and effects that a map allows.  Only `VMM_ERR_NOMEM` is up to the allocator. -/
inductive Answers (M : PageMap) : Call → Reply → PageMap → Prop where
  | mapped {v p fl : UInt64} (hv : Valid v) (hp : isAligned4k p = true) (hfree : M v = none) :
      Answers M (.map v p fl) (.status (.ok ())) (M.map v p fl)
  | exists {v p fl : UInt64} (hv : Valid v) (hp : isAligned4k p = true) (hmapped : M v ≠ none) :
      Answers M (.map v p fl) (.status (.error .errExists)) M
  | nomem {v p fl : UInt64} (hv : Valid v) (hp : isAligned4k p = true) (hfree : M v = none) :
      Answers M (.map v p fl) (.status (.error .errNomem)) M
  | mapInval {v p fl : UInt64} (h : ¬ (Valid v ∧ isAligned4k p = true)) :
      Answers M (.map v p fl) (.status (.error .errInval)) M
  | unmapped {v : UInt64} (hv : Valid v) (hmapped : M v ≠ none) :
      Answers M (.unmap v) (.status (.ok ())) (M.unmap v)
  | notFound {v : UInt64} (hv : Valid v) (hfree : M v = none) :
      Answers M (.unmap v) (.status (.error .errNotFound)) M
  | unmapInval {v : UInt64} (hv : ¬ Valid v) : Answers M (.unmap v) (.status (.error .errInval)) M
  | query {v : UInt64} : Answers M (.query v) (.mapping (M.answer v)) M

/-! ## The tree of tables -/

/-- The table an entry points to. -/
def child (space : Space π) (e : UInt64) : Option π :=
  if e &&& ptePresent ≠ 0 ∧ e &&& pteHuge = 0 then tableFromPhys space (e &&& pteAddrMask) else none

/-- The page tables of a space, with the root at `root`. -/
structure TablesOk (space : Space π) (root : π) (s : State π) : Prop where
  rootTable : tableFromPhys space space.rootPaddr = some root
  tree : Tree (child space) root 3 s.mem
  clean : ∀ l t i, l.length < 3 → tableAt (child space) root s.mem l = some t →
    s.mem t i &&& ptePresent ≠ 0 → ∃ u, child space (s.mem t i) = some u
  used : ∀ l t, l.length ≤ 3 → tableAt (child space) root s.mem l = some t →
    t = root ∨ ∃ k < s.calls, space.allocFrame k ≠ invalidPhys ∧
      space.physToVirt (space.allocFrame k) = some t

/-- The mapping in an entry. -/
def leaf (e : UInt64) : Option (UInt64 × UInt64) :=
  if e &&& ptePresent ≠ 0 then some (e &&& pteAddrMask, e &&& ~~~ pteAddrMask) else none

/-- The map of a state. -/
def pageMap (space : Space π) (root : π) (s : State π) : PageMap := fun v =>
  if Valid v then
    (tableAt (child space) root s.mem (path v)).bind fun pt => leaf (s.mem pt (idxPt v))
  else none

omit [DecidableEq π] in
theorem child_none_of_absent {e : UInt64} (h : e &&& ptePresent = 0) : child space e = none :=
  if_neg fun hpresent => hpresent.1 h

omit [DecidableEq π] in
theorem child_of_present {e : UInt64} {u : π} (h : child space e = some u) :
    e &&& ptePresent ≠ 0 ∧ e &&& pteHuge = 0 ∧ tableFromPhys space (e &&& pteAddrMask) =
      some u := by
  unfold child at h
  split_ifs at h with hpresent
  exact ⟨hpresent.1, hpresent.2, h⟩

omit [DecidableEq π] in
theorem nonNull_some {σ : Type} {u : π} {e : Err} (s : σ) :
    (nonNull (some u) e : Act σ Err π) s = (.ok u, s) := rfl

theorem leaf_pageEntry (p fl : UInt64) :
    leaf (pageEntry p fl) = some (p &&& pteAddrMask, ptePresent ||| (fl &&& allowed)) := by
  rw [leaf, if_pos (pageEntry_present p fl), pageEntry_addr, pageEntry_flags]

theorem leaf_eq_none {e : UInt64} : leaf e = none ↔ e &&& ptePresent = 0 := by
  unfold leaf
  split_ifs with h
  · simp [h]
  · simpa using h

/-! ## Walking -/

omit [DecidableEq π] in
theorem nextTable_of_child {u : π} (hu : child space (s.mem t i) = some u) :
    nextTable space t i s = (.ok u, s) := by
  obtain ⟨hpresent, hhuge, hfrom⟩ := child_of_present hu
  have hgood : ¬ (s.mem t i &&& ptePresent = 0 ∨ s.mem t i &&& pteHuge ≠ 0) :=
    not_or.mpr ⟨hpresent, not_not.mpr hhuge⟩
  unfold nextTable
  rw [get_bind_apply, failIf_bind_of_not hgood, hfrom]
  rfl

omit [DecidableEq π] in
theorem nextTable_eq (h : TablesOk space root s) (hl : l.length < 3)
    (ht : tableAt (child space) root s.mem l = some t) :
    nextTable space t i s =
      match tableAt (child space) root s.mem (i :: l) with
      | some u => (.ok u, s)
      | none => (.error .errNotFound, s) := by
  have hstep : tableAt (child space) root s.mem (i :: l) = child space (s.mem t i) := by
    rw [tableAt, ht, Option.bind_some]
  unfold nextTable
  rw [hstep, get_bind_apply]
  by_cases hpresent : s.mem t i &&& ptePresent = 0
  · rw [failIf_bind_of_pos (Or.inl hpresent), child_none_of_absent hpresent]
  · obtain ⟨u, hu⟩ := h.clean l t i hl ht hpresent
    rw [hu]
    exact nextTable_of_child hu

omit [DecidableEq π] in
theorem tableAt_cons_none {l : List (Fin 512)} (h : tableAt (child space) root s.mem l = none)
    (i : Fin 512) : tableAt (child space) root s.mem (i :: l) = none := by
  rw [tableAt, h, Option.bind_none]

omit [DecidableEq π] in
theorem walk_eq (h : TablesOk space root s) (hv : Valid v) :
    walk space v s =
      match tableAt (child space) root s.mem (path v) with
      | some pt => (.ok pt, s)
      | none => (.error .errNotFound, s) := by
  have hgood : ¬ (isCanonical v = false ∨ isAligned4k v = false) := by
    simp [hv.1, hv.2]
  have hroot : tableAt (child space) root s.mem [] = some root := rfl
  unfold walk path
  rw [failIf_bind_of_not hgood, h.rootTable, bind_of_ok (nonNull_some s)]
  cases hpdpt : tableAt (child space) root s.mem [idxPml4 v] with
  | none =>
      have hpd := tableAt_cons_none hpdpt (idxPdpt v)
      rw [tableAt_cons_none hpd]
      exact bind_of_error (by rw [nextTable_eq h (by decide) hroot, hpdpt]) _
  | some pdpt =>
      rw [bind_of_ok (by rw [nextTable_eq h (by decide) hroot, hpdpt])]
      cases hpd : tableAt (child space) root s.mem [idxPdpt v, idxPml4 v] with
      | none =>
          rw [tableAt_cons_none hpd]
          exact bind_of_error (by rw [nextTable_eq h (by simp) hpdpt, hpd]) _
      | some pd =>
          rw [bind_of_ok (by rw [nextTable_eq h (by simp) hpdpt, hpd])]
          exact nextTable_eq h (by simp) hpd

omit [DecidableEq π] in
theorem walk_of_not_valid (hv : ¬ Valid v) : walk space v s = (.error .errInval, s) := by
  have hbad : isCanonical v = false ∨ isAligned4k v = false := by
    by_contra hboth
    simp only [not_or, Bool.not_eq_false] at hboth
    exact hv hboth
  exact failIf_bind_of_pos hbad _ s

omit [DecidableEq π] in
theorem pageMap_apply (hv : Valid v) : pageMap space root s v =
    (tableAt (child space) root s.mem (path v)).bind fun pt => leaf (s.mem pt (idxPt v)) :=
  if_pos hv

omit [DecidableEq π] in
/-- A query reads the map. -/
theorem queryPage_eq (h : TablesOk space root s) :
    queryPage space v s = ((pageMap space root s).answer v, s) := by
  unfold queryPage PageMap.answer
  by_cases hv : Valid v
  · rw [if_pos hv, pageMap_apply hv]
    cases hpt : tableAt (child space) root s.mem (path v) with
    | none => exact bind_of_error (by rw [walk_eq h hv, hpt]) _
    | some pt =>
        rw [bind_of_ok (by rw [walk_eq h hv, hpt]), Option.bind_some, get_bind_apply, leaf]
        by_cases hpresent : s.mem pt (idxPt v) &&& ptePresent = 0
        · rw [failIf_bind_of_pos hpresent, if_neg (not_not.mpr hpresent)]
        · rw [failIf_bind_of_not hpresent, if_pos hpresent]
          rfl
  · rw [if_neg hv]
    exact bind_of_error (walk_of_not_valid hv) _

/-! ## Writing an entry of a page -/

/-- An entry of the last level is written. -/
theorem TablesOk.set (h : TablesOk space root s) {pt : π} {l : List (Fin 512)} (hl : l.length = 3)
    (hpt : tableAt (child space) root s.mem l = some pt) (i : Fin 512) (e : UInt64) :
    TablesOk space root (s.set pt i e) where
  rootTable := h.rootTable
  tree := h.tree.setLeaf hl hpt
  clean l' t j hl' ht hpresent := by
    rw [State.set_mem, tableAt_setLeaf h.tree hl hpt l' (by omega)] at ht
    have hne : t ≠ pt := by
      refine h.tree.ne (by omega) (by omega) ht hpt ?_
      rintro rfl
      omega
    have hsame : (s.set pt i e).mem t = s.mem t := setEntry_of_ne_table hne
    rw [hsame] at hpresent ⊢
    exact h.clean l' t j hl' ht hpresent
  used l' t hl' ht := by
    rw [State.set_mem, tableAt_setLeaf h.tree hl hpt l' hl'] at ht
    exact h.used l' t hl' ht

/-- Only the address that the entry belongs to sees it. -/
theorem pageMap_set (h : TablesOk space root s) {pt : π} (hv : Valid v)
    (hpt : tableAt (child space) root s.mem (path v) = some pt) (e : UInt64) :
    pageMap space root (s.set pt (idxPt v) e) =
      Function.update (pageMap space root s) v (leaf e) := by
  have hpaths := tableAt_setLeaf (i := idxPt v) (e := e) h.tree (rfl : (path v).length = 3) hpt
  funext w
  by_cases hw : Valid w
  · rw [pageMap_apply hw, State.set_mem, hpaths (path w) (path_length_le w)]
    by_cases heq : w = v
    · subst heq
      rw [hpt, Option.bind_some, setEntry_self, Function.update_self]
    · rw [Function.update_of_ne heq, pageMap_apply hw]
      cases hu : tableAt (child space) root s.mem (path w) with
      | none => rfl
      | some u =>
          rw [Option.bind_some, Option.bind_some]
          by_cases hut : u = pt
          · -- the same table is reached by one path only, so the last indices differ
            subst hut
            have hpath := h.tree (path w) (path v) u (path_length_le w) (path_length_le v) hu hpt
            have hidx : idxPt w ≠ idxPt v := fun hidx => heq (path_injective hw hv hpath hidx)
            rw [setEntry_of_ne_index hidx]
          · rw [setEntry_of_ne_table hut]
  · have hne : w ≠ v := fun heq => hw (heq ▸ hv)
    rw [Function.update_of_ne hne, pageMap, pageMap, if_neg hw, if_neg hw]

/-! ## New tables -/

/-- The tree of tables grows, and the map stays the same. -/
structure Grown (space : Space π) (root : π) (s s' : State π) : Prop where
  ok : TablesOk space root s'
  same : pageMap space root s' = pageMap space root s

omit [DecidableEq π] in
theorem Grown.refl (h : TablesOk space root s) : Grown space root s s := ⟨h, rfl⟩

omit [DecidableEq π] in
theorem Grown.trans (h : Grown space root s s') (h' : Grown space root s' s'') :
    Grown space root s s'' := ⟨h'.ok, h'.same.trans h.same⟩

omit [DecidableEq π] in
theorem tableFromPhys_eq_some {f : UInt64} (h : tableFromPhys space f = some t) :
    isAligned4k f = true ∧ space.physToVirt f = some t := by
  unfold tableFromPhys at h
  split_ifs at h with haligned
  exact ⟨haligned, h⟩

omit [DecidableEq π] in
theorem Trusted.frame (ht : Trusted space) {k : ℕ} (hk : space.allocFrame k ≠ invalidPhys) :
    Frame space (space.allocFrame k) := by
  rcases ht.alloc k with hinvalid | ⟨haligned, hlow, -⟩
  · exact absurd hinvalid hk
  · exact ⟨haligned, Or.inl hlow⟩

omit [DecidableEq π] in
/-- The frames of later allocations are not in the tree. -/
theorem TablesOk.fresh (h : TablesOk space root s) (ht : Trusted space) {k : ℕ}
    (hk : s.calls ≤ k) {u : π} (hvalid : space.allocFrame k ≠ invalidPhys)
    (hu : space.physToVirt (space.allocFrame k) = some u)
    (l : List (Fin 512)) (hl : l.length ≤ 3) : tableAt (child space) root s.mem l ≠ some u := by
  intro hl'
  have hframe := ht.frame hvalid
  rcases ht.alloc k with hinvalid | ⟨-, -, hnotRoot, hnew⟩
  · exact hvalid hinvalid
  rcases h.used l u hl hl' with rfl | ⟨j, hj, hjvalid, hju⟩
  · obtain ⟨haligned, hroot⟩ := tableFromPhys_eq_some h.rootTable
    exact hnotRoot (ht.injective _ _ u hframe ⟨haligned, Or.inr rfl⟩ hu hroot)
  · exact hnew j (Nat.lt_of_lt_of_le hj hk) (ht.injective _ _ u (ht.frame hjvalid) hframe hju hu)

omit [DecidableEq π] in
theorem child_tableEntry {f : UInt64} {u : π} (haligned : isAligned4k f = true)
    (hlow : f.toNat < 2 ^ 52) (hu : space.physToVirt f = some u) :
    child space (tableEntry f) = some u := by
  rw [child, if_pos ⟨tableEntry_present f, tableEntry_huge f⟩, tableEntry_addr haligned hlow,
    tableFromPhys, if_pos haligned, hu]

omit [DecidableEq π] in
theorem child_zeroPage (i : Fin 512) : child space (zeroPage i) = none :=
  child_none_of_absent (by decide : (0 : UInt64) &&& ptePresent = 0)

/-- The state after a table at `u`, in the frame of the next allocation, came in below entry `i` of
`t`. -/
def install (space : Space π) (s : State π) (t : π) (i : Fin 512) (u : π) : State π where
  mem := setEntry (Function.update s.mem u zeroPage) t i (tableEntry (space.allocFrame s.calls))
  calls := s.calls + 1

/-- The page of the frame from call `k` of the allocator, if `get_or_alloc_next_table` accepts the
frame. -/
def newPage (space : Space π) (k : ℕ) : Option π :=
  if space.allocFrame k = invalidPhys ∨ isAligned4k (space.allocFrame k) = false then none
  else tableFromPhys space (space.allocFrame k)

omit [DecidableEq π] in
theorem isAligned4k_of_newPage {k : ℕ} {u : π} (hu : newPage space k = some u) :
    isAligned4k (space.allocFrame k) = true ∧ tableFromPhys space (space.allocFrame k) =
      some u := by
  unfold newPage at hu
  split_ifs at hu with hbad
  exact ⟨Bool.not_eq_false _ ▸ (not_or.mp hbad).2, hu⟩

theorem getOrAllocNextTable_of_present (hpresent : s.mem t i &&& ptePresent ≠ 0) {u : π}
    (hu : child space (s.mem t i) = some u) : getOrAllocNextTable space t i s = (.ok u, s) := by
  obtain ⟨-, hhuge, hfrom⟩ := child_of_present hu
  unfold getOrAllocNextTable
  rw [get_bind_apply, if_pos hpresent, failIf_bind_of_not (not_not.mpr hhuge), hfrom]
  rfl

/-- A frame that becomes a table. -/
theorem getOrAllocNextTable_of_new (habsent : s.mem t i &&& ptePresent = 0) {u : π}
    (hu : newPage space s.calls = some u) :
    getOrAllocNextTable space t i s = (.ok u, install space s t i u) := by
  unfold getOrAllocNextTable allocNextTable
  rw [get_bind_apply, if_neg (not_not.mpr habsent), get_bind_apply, modify_bind_apply]
  unfold newPage at hu
  split_ifs at hu with hbad
  rw [failIf_bind_of_not hbad, hu]
  rfl

/-- What the lemmas about a new table start from. -/
structure Installs (space : Space π) (root : π) (s : State π) (l : List (Fin 512)) (t : π)
    (i : Fin 512) (u : π) : Prop where
  ok : TablesOk space root s
  short : l.length < 3
  table : tableAt (child space) root s.mem l = some t
  absent : s.mem t i &&& ptePresent = 0
  fresh : ∀ l' : List (Fin 512), l'.length ≤ 3 → tableAt (child space) root s.mem l' ≠ some u
  entry : child space (tableEntry (space.allocFrame s.calls)) = some u
  valid : space.allocFrame s.calls ≠ invalidPhys
  mapped : space.physToVirt (space.allocFrame s.calls) = some u

namespace Installs

variable {u : π}

theorem tableAt_eq (h : Installs space root s l t i u) (l' : List (Fin 512)) (hl' : l'.length ≤ 3) :
    tableAt (child space) root (install space s t i u).mem l' =
      if l' = i :: l then some u else tableAt (child space) root s.mem l' :=
  tableAt_install h.ok.tree h.short h.table (child_none_of_absent h.absent) h.fresh h.entry
    child_zeroPage l' hl'

theorem new_page (h : Installs space root s l t i u) :
    (install space s t i u).mem u = zeroPage := by
  have hne : u ≠ t := fun heq => h.fresh l (Nat.le_of_lt h.short) (heq ▸ h.table)
  calc (install space s t i u).mem u
      = Function.update s.mem u zeroPage u := setEntry_of_ne_table hne
    _ = zeroPage := Function.update_self ..

/-- The entries of the other tables stay, except for the one that points to the new table. -/
theorem old_page (h : Installs space root s l t i u) {l' : List (Fin 512)} {w : π}
    (hl' : l'.length ≤ 3) (hw : tableAt (child space) root s.mem l' = some w) (j : Fin 512) :
    (install space s t i u).mem w j =
      if j :: l' = i :: l then tableEntry (space.allocFrame s.calls) else s.mem w j :=
  setEntry_install h.ok.tree (Nat.le_of_lt h.short) h.table hl' hw
    (fun heq => h.fresh l' hl' (heq ▸ hw))

theorem tablesOk (h : Installs space root s l t i u) :
    TablesOk space root (install space s t i u) where
  rootTable := h.ok.rootTable
  tree :=
    h.ok.tree.install h.short h.table (child_none_of_absent h.absent) h.fresh h.entry child_zeroPage
  clean l' w j hl' hw hpresent := by
    rw [h.tableAt_eq l' (Nat.le_of_lt hl')] at hw
    split_ifs at hw with hnew
    · obtain rfl := Option.some.inj hw
      rw [h.new_page] at hpresent
      exact absurd (by decide : (0 : UInt64) &&& ptePresent = 0) hpresent
    · rw [h.old_page (Nat.le_of_lt hl') hw] at hpresent ⊢
      split_ifs at hpresent ⊢
      · exact ⟨u, h.entry⟩
      · exact h.ok.clean l' w j hl' hw hpresent
  used l' w hl' hw := by
    rw [h.tableAt_eq l' hl'] at hw
    split_ifs at hw with hnew
    · obtain rfl := Option.some.inj hw
      exact Or.inr ⟨s.calls, Nat.lt_succ_self _, h.valid, h.mapped⟩
    · rcases h.ok.used l' w hl' hw with hroot | ⟨k, hk, hframe⟩
      · exact Or.inl hroot
      · exact Or.inr ⟨k, Nat.lt_succ_of_lt hk, hframe⟩

/-- A new table holds no mapping. -/
theorem pageMap_eq (h : Installs space root s l t i u) :
    pageMap space root (install space s t i u) = pageMap space root s := by
  have hnone : tableAt (child space) root s.mem (i :: l) = none := by
    rw [tableAt, h.table, Option.bind_some, child_none_of_absent h.absent]
  funext v
  by_cases hv : Valid v
  · rw [pageMap_apply hv, pageMap_apply hv, h.tableAt_eq (path v) (path_length_le v)]
    split_ifs with hnew
    · rw [hnew, hnone, Option.bind_some, Option.bind_none, h.new_page]
      exact leaf_eq_none.mpr (by decide : (0 : UInt64) &&& ptePresent = 0)
    · cases hw : tableAt (child space) root s.mem (path v) with
      | none => rfl
      | some w =>
          -- the tables with mappings are at the ends of the paths, and `t` is not
          have hother : idxPt v :: path v ≠ i :: l := by
            intro heq
            have hlen := congrArg List.length heq
            have hshort := h.short
            simp only [path, List.length_cons, List.length_nil] at hlen
            omega
          rw [Option.bind_some, Option.bind_some, h.old_page (path_length_le v) hw, if_neg hother]
  · rw [pageMap, pageMap, if_neg hv, if_neg hv]

end Installs

/-- What `vmm_map_page` does with the allocator: a frame that is refused, or a new table. -/
inductive TableStep (space : Space π) (root : π) : State π → State π → Prop where
  | refused (s : State π) : TableStep space root s { s with calls := s.calls + 1 }
  | installed {s : State π} {l : List (Fin 512)} {t : π} {i : Fin 512} {u : π}
      (h : Installs space root s l t i u) : TableStep space root s (install space s t i u)

theorem Grown.step (h : TablesOk space root s) (hstep : TableStep space root s s') :
    Grown space root s s' := by
  cases hstep with
  | refused =>
      refine ⟨⟨h.rootTable, h.tree, h.clean, fun l w hl hw => ?_⟩, rfl⟩
      rcases h.used l w hl hw with hfirst | ⟨k, hk, hframe⟩
      · exact Or.inl hfirst
      · exact Or.inr ⟨k, Nat.lt_succ_of_lt hk, hframe⟩
  | installed hinstalls => exact ⟨hinstalls.tablesOk, hinstalls.pageMap_eq⟩

theorem Grown.steps (h : TablesOk space root s)
    (hsteps : ReflTransGen (TableStep space root) s s') :
    Grown space root s s' := by
  induction hsteps with
  | refl => exact Grown.refl h
  | tail _ hstep ih => exact ih.trans (Grown.step ih.ok hstep)

/-- One level of the walk of `vmm_map_page`: the next table is there afterwards, or there was no
frame for it. -/
theorem getOrAllocNextTable_cases (ht : Trusted space) (h : TablesOk space root s)
    (hl : l.length < 3) (htable : tableAt (child space) root s.mem l = some t) :
    ∃ s', ReflTransGen (TableStep space root) s s' ∧
      ((∃ u, getOrAllocNextTable space t i s = (.ok u, s') ∧
          tableAt (child space) root s'.mem (i :: l) = some u) ∨
        (getOrAllocNextTable space t i s = (.error .errNomem, s') ∧
          tableAt (child space) root s.mem (i :: l) = none)) := by
  have hstep : tableAt (child space) root s.mem (i :: l) = child space (s.mem t i) := by
    rw [tableAt, htable, Option.bind_some]
  by_cases habsent : s.mem t i &&& ptePresent = 0
  · by_cases hvalid : space.allocFrame s.calls = invalidPhys
    · refine ⟨{ s with calls := s.calls + 1 }, .single (.refused s), Or.inr ⟨?_, ?_⟩⟩
      · unfold getOrAllocNextTable allocNextTable
        rw [get_bind_apply, if_neg (not_not.mpr habsent), get_bind_apply, modify_bind_apply]
        exact failIf_bind_of_pos (Or.inl hvalid) _ _
      · rw [hstep, child_none_of_absent habsent]
    · obtain ⟨u, hu⟩ := ht.mapped _ (ht.frame hvalid)
      rcases ht.alloc s.calls with hinvalid | ⟨haligned, hlow, -⟩
      · exact absurd hinvalid hvalid
      have hinstalls : Installs space root s l t i u :=
        ⟨h, hl, htable, habsent, h.fresh ht (Nat.le_refl _) hvalid hu, child_tableEntry haligned
          hlow hu, hvalid, hu⟩
      have hnew : newPage space s.calls = some u := by
        rw [newPage, if_neg (by simp [hvalid, haligned]), tableFromPhys, if_pos haligned, hu]
      refine ⟨install space s t i u, .single (.installed hinstalls),
        Or.inl ⟨u, getOrAllocNextTable_of_new habsent hnew, ?_⟩⟩
      rw [hinstalls.tableAt_eq (i :: l) (by rw [List.length_cons]; omega), if_pos rfl]
  · obtain ⟨u, hu⟩ := h.clean l t i hl htable habsent
    exact ⟨s, .refl, Or.inl ⟨u, getOrAllocNextTable_of_present habsent hu, hstep.trans hu⟩⟩

/-! ## The operations -/

omit [DecidableEq π] in
theorem pageMap_eq_none_of_path (hv : Valid v) {l : List (Fin 512)} (hl : l <:+ path v)
    (hnone : tableAt (child space) root s.mem l = none) : pageMap space root s v = none := by
  have hpath : tableAt (child space) root s.mem (path v) = none := by
    obtain ⟨above, habove⟩ := hl
    rw [← habove]
    clear habove
    induction above with
    | nil => exact hnone
    | cons i above ih => exact tableAt_cons_none ih i
  rw [pageMap_apply hv, hpath, Option.bind_none]

/-- The tables for an address are there after the upper levels of `vmm_map_page`, or there was no
frame for one of them. -/
theorem mapPage_cases (ht : Trusted space) (h : TablesOk space root s) (hv : Valid v)
    (hp : isAligned4k p = true) (fl : UInt64) :
    ∃ s', ReflTransGen (TableStep space root) s s' ∧
      ((mapPage space v p fl s = (.error .errNomem, s') ∧ pageMap space root s v = none) ∨
        ∃ pt, tableAt (child space) root s'.mem (path v) = some pt ∧
          mapPage space v p fl s =
            if s'.mem pt (idxPt v) &&& ptePresent ≠ 0 then (.error .errExists, s')
            else (.ok (), s'.set pt (idxPt v) (pageEntry p fl))) := by
  have hgood : ¬ (isCanonical v = false ∨ isAligned4k v = false ∨ isAligned4k p = false) := by
    simp [hv.1, hv.2, hp]
  have hroot : tableAt (child space) root s.mem [] = some root := rfl
  unfold mapPage
  rw [failIf_bind_of_not hgood, h.rootTable, bind_of_ok (nonNull_some s)]
  obtain ⟨s₁, hsteps₁, ⟨pdpt, hrun₁, hpdpt⟩ | ⟨hrun₁, hnone⟩⟩ :=
    getOrAllocNextTable_cases (i := idxPml4 v) ht h (by decide) hroot
  swap
  · refine ⟨s₁, hsteps₁, Or.inl ⟨bind_of_error hrun₁ _, ?_⟩⟩
    exact pageMap_eq_none_of_path hv ⟨[idxPd v, idxPdpt v], rfl⟩ hnone
  rw [bind_of_ok hrun₁]
  have hg₁ := Grown.steps h hsteps₁
  obtain ⟨s₂, hsteps₂, ⟨pd, hrun₂, hpd⟩ | ⟨hrun₂, hnone⟩⟩ :=
    getOrAllocNextTable_cases (i := idxPdpt v) ht hg₁.ok (by simp) hpdpt
  swap
  · refine ⟨s₂, hsteps₁.trans hsteps₂, Or.inl ⟨bind_of_error hrun₂ _, ?_⟩⟩
    rw [← hg₁.same]
    exact pageMap_eq_none_of_path hv ⟨[idxPd v], rfl⟩ hnone
  rw [bind_of_ok hrun₂]
  have hg₂ := hg₁.trans (Grown.steps hg₁.ok hsteps₂)
  obtain ⟨s₃, hsteps₃, ⟨pt, hrun₃, hpt⟩ | ⟨hrun₃, hnone⟩⟩ :=
    getOrAllocNextTable_cases (i := idxPd v) ht hg₂.ok (by simp) hpd
  swap
  · refine ⟨s₃, (hsteps₁.trans hsteps₂).trans hsteps₃, Or.inl ⟨bind_of_error hrun₃ _, ?_⟩⟩
    rw [← hg₂.same]
    exact pageMap_eq_none_of_path hv ⟨[], rfl⟩ hnone
  refine ⟨s₃, (hsteps₁.trans hsteps₂).trans hsteps₃, Or.inr ⟨pt, hpt, ?_⟩⟩
  rw [bind_of_ok hrun₃, get_bind_apply]
  split_ifs with hpresent
  · exact failIf_bind_of_pos hpresent _ s₃
  · rw [failIf_bind_of_not hpresent]
    rfl

/-- The tables are well formed, and the map they hold is `M`. -/
structure Holds (space : Space π) (root : π) (s : State π) (M : PageMap) : Prop where
  ok : TablesOk space root s
  map : pageMap space root s = M

theorem mapPage_of_bad (hargs : ¬ (Valid v ∧ isAligned4k p = true)) :
    mapPage space v p fl s = (.error .errInval, s) := by
  have hbad : isCanonical v = false ∨ isAligned4k v = false ∨ isAligned4k p = false := by
    by_contra hall
    simp only [not_or, Bool.not_eq_false] at hall
    exact hargs ⟨⟨hall.1, hall.2.1⟩, hall.2.2⟩
  exact failIf_bind_of_pos hbad _ s

theorem mapPage_step (ht : Trusted space) {M : PageMap} (h : Holds space root s M) :
    ∃ M', Answers M (.map v p fl) (.status (mapPage space v p fl s).1) M' ∧
      Holds space root (mapPage space v p fl s).2 M' := by
  by_cases hargs : Valid v ∧ isAligned4k p = true
  swap
  · rw [mapPage_of_bad hargs]
    exact ⟨M, .mapInval hargs, h⟩
  obtain ⟨hv, hp⟩ := hargs
  obtain ⟨s', hsteps, hcases⟩ := mapPage_cases ht h.ok hv hp fl
  have hgrown := Grown.steps h.ok hsteps
  rcases hcases with ⟨hrun, hnone⟩ | ⟨pt, hpt, hrun⟩
  · rw [hrun]
    rw [h.map] at hnone
    exact ⟨M, .nomem hv hp hnone, hgrown.ok, hgrown.same.trans h.map⟩
  have hleaf : M v = leaf (s'.mem pt (idxPt v)) := by
    calc M v = pageMap space root s v := by rw [h.map]
      _ = pageMap space root s' v := by rw [hgrown.same]
      _ = leaf (s'.mem pt (idxPt v)) := by rw [pageMap_apply hv, hpt, Option.bind_some]
  rw [hrun]
  split_ifs with hpresent
  · have hmapped : M v ≠ none := by
      rw [hleaf, Ne, leaf_eq_none]
      exact hpresent
    exact ⟨M, .exists hv hp hmapped, hgrown.ok, hgrown.same.trans h.map⟩
  · have hfree : M v = none := by
      rw [hleaf, leaf_eq_none]
      exact not_not.mp hpresent
    refine ⟨M.map v p fl, .mapped hv hp hfree, hgrown.ok.set rfl hpt _ _, ?_⟩
    rw [pageMap_set hgrown.ok hv hpt, hgrown.same, h.map, leaf_pageEntry, PageMap.map]

/-- A page is unmapped, or there was none. -/
theorem unmapPage_cases (h : TablesOk space root s) (hv : Valid v) :
    (unmapPage space v s = (.error .errNotFound, s) ∧ pageMap space root s v = none) ∨
      ∃ pt, tableAt (child space) root s.mem (path v) = some pt ∧
      s.mem pt (idxPt v) &&& ptePresent ≠ 0 ∧
        unmapPage space v s = (.ok (), s.set pt (idxPt v) 0) := by
  have hwalk := walk_eq h hv
  rw [pageMap_apply hv]
  cases hpt : tableAt (child space) root s.mem (path v) with
  | none =>
      rw [hpt] at hwalk
      exact Or.inl ⟨bind_of_error hwalk _, rfl⟩
  | some pt =>
      rw [hpt] at hwalk
      unfold unmapPage
      rw [bind_of_ok hwalk, get_bind_apply]
      by_cases habsent : s.mem pt (idxPt v) &&& ptePresent = 0
      · rw [failIf_bind_of_pos habsent, Option.bind_some]
        exact Or.inl ⟨rfl, leaf_eq_none.mpr habsent⟩
      · rw [failIf_bind_of_not habsent]
        exact Or.inr ⟨pt, rfl, habsent, rfl⟩

theorem unmapPage_of_bad (hv : ¬ Valid v) : unmapPage space v s = (.error .errInval, s) :=
  bind_of_error (walk_of_not_valid hv) _

theorem unmapPage_step {M : PageMap} (h : Holds space root s M) :
    ∃ M', Answers M (.unmap v) (.status (unmapPage space v s).1) M' ∧
      Holds space root (unmapPage space v s).2 M' := by
  by_cases hv : Valid v
  swap
  · rw [unmapPage_of_bad hv]
    exact ⟨M, .unmapInval hv, h⟩
  rcases unmapPage_cases h.ok hv with ⟨hrun, hnone⟩ | ⟨pt, hpt, hpresent, hrun⟩
  · rw [hrun]
    rw [h.map] at hnone
    exact ⟨M, .notFound hv hnone, h⟩
  · have hmapped : M v ≠ none := by
      rw [← h.map, pageMap_apply hv, hpt, Option.bind_some, Ne, leaf_eq_none]
      exact hpresent
    have hzero : leaf 0 = none := leaf_eq_none.mpr (by decide)
    rw [hrun]
    refine ⟨M.unmap v, .unmapped hv hmapped, h.ok.set rfl hpt _ _, ?_⟩
    calc pageMap space root (s.set pt (idxPt v) 0)
        = Function.update (pageMap space root s) v (leaf 0) := pageMap_set h.ok hv hpt 0
      _ = M.unmap v := by rw [h.map, hzero, PageMap.unmap]

/-- What a call does to the state: new tables, and then at most one entry of the last level. -/
theorem exec_cases (ht : Trusted space) (h : TablesOk space root s) (c : Call) :
    ∃ s', ReflTransGen (TableStep space root) s s' ∧
      ((exec space c s).2 = s' ∨ ∃ pt v e, tableAt (child space) root s'.mem (path v) = some pt ∧
        (exec space c s).2 = s'.set pt (idxPt v) e) := by
  cases c with
  | map v p fl =>
      by_cases hargs : Valid v ∧ isAligned4k p = true
      swap
      · exact ⟨s, .refl, Or.inl (congrArg Prod.snd (mapPage_of_bad hargs))⟩
      obtain ⟨s', hsteps, ⟨hrun, -⟩ | ⟨pt, hpt, hrun⟩⟩ := mapPage_cases ht h hargs.1 hargs.2 fl
      · exact ⟨s', hsteps, Or.inl (congrArg Prod.snd hrun)⟩
      · refine ⟨s', hsteps, ?_⟩
        rw [exec, hrun]
        split_ifs
        · exact Or.inl rfl
        · exact Or.inr ⟨pt, v, _, hpt, rfl⟩
  | unmap v =>
      refine ⟨s, .refl, ?_⟩
      by_cases hv : Valid v
      swap
      · exact Or.inl (congrArg Prod.snd (unmapPage_of_bad hv))
      rcases unmapPage_cases h hv with ⟨hrun, -⟩ | ⟨pt, hpt, -, hrun⟩
      · exact Or.inl (congrArg Prod.snd hrun)
      · exact Or.inr ⟨pt, v, 0, hpt, congrArg Prod.snd hrun⟩
  | query v => exact ⟨s, .refl, Or.inl (congrArg Prod.snd (queryPage_eq h))⟩

theorem exec_step (ht : Trusted space) {M : PageMap} (h : Holds space root s M) (c : Call) :
    ∃ M', Answers M c (exec space c s).1 M' ∧ Holds space root (exec space c s).2 M' := by
  cases c with
  | map v p fl => exact mapPage_step ht h
  | unmap v => exact unmapPage_step h
  | query v =>
      rw [exec, queryPage_eq h.ok, h.map]
      exact ⟨M, .query, h⟩

/-! ## Runs -/

/-- The state after a sequence of calls. -/
def run (space : Space π) (s : State π) (calls : List Call) : State π :=
  calls.foldl (fun s c => (exec space c s).2) s

/-- The queries have the answers of `M`. -/
def Refines (space : Space π) (s : State π) (M : PageMap) : Prop :=
  ∀ v, (queryPage space v s).1 = M.answer v

omit [DecidableEq π] in
theorem Holds.refines {M : PageMap} (h : Holds space root s M) : Refines space s M := by
  intro v
  rw [queryPage_eq h.ok, h.map]

omit [DecidableEq π] in
/-- A root without entries is the only table. -/
theorem tableAt_of_zero {mem : π → Page} (hzero : mem root = zeroPage) (l : List (Fin 512)) :
    ∀ t, tableAt (child space) root mem l = some t → l = [] ∧ t = root := by
  induction l with
  | nil => exact fun t ht => ⟨rfl, (Option.some.inj ht).symm⟩
  | cons i l ih =>
      intro t ht
      cases hu : tableAt (child space) root mem l with
      | none =>
          rw [tableAt, hu, Option.bind_none] at ht
          cases ht
      | some u =>
          rw [tableAt, hu, Option.bind_some, (ih u hu).2, hzero, child_zeroPage] at ht
          cases ht

theorem zeroPage_absent (i : Fin 512) : zeroPage i &&& ptePresent = 0 :=
  (by decide : (0 : UInt64) &&& ptePresent = 0)

omit [DecidableEq π] in
/-- Before the first call there is a root without entries. -/
theorem holds_init (hroot : tableFromPhys space space.rootPaddr = some root) (mem : π → Page)
    (hzero : mem root = zeroPage) : Holds space root ⟨mem, 0⟩ fun _ => none := by
  have hpaths : ∀ l t, tableAt (child space) root mem l = some t → l = [] ∧ t = root :=
    tableAt_of_zero hzero
  refine ⟨⟨hroot, ?_, ?_, ?_⟩, ?_⟩
  · intro l l' t _ _ ht ht'
    exact (hpaths l t ht).1.trans (hpaths l' t ht').1.symm
  · intro l t i _ ht hpresent
    have hpage : mem t i = zeroPage i := by rw [(hpaths l t ht).2, hzero]
    exact absurd (zeroPage_absent i) (hpage ▸ hpresent)
  · exact fun l t _ ht => Or.inl (hpaths l t ht).2
  · funext v
    unfold pageMap
    split_ifs with hv
    · cases ht : tableAt (child space) root mem (path v) with
      | none => rfl
      | some t => exact absurd (hpaths _ _ ht).1 (List.cons_ne_nil _ _)
    · rfl

theorem holds_run (ht : Trusted space) (calls : List Call) :
    ∀ {s : State π} {M : PageMap}, Holds space root s M →
      ∃ M', Holds space root (run space s calls) M' := by
  induction calls with
  | nil => exact fun h => ⟨_, h⟩
  | cons c calls ih =>
      intro s M h
      obtain ⟨M', -, h'⟩ := exec_step ht h c
      exact ih h'

omit [DecidableEq π] in
/-- The root of a new space. -/
theorem root_of_spaceInit {rootPaddr : UInt64} {physToVirt : UInt64 → Option π}
    {allocFrame : ℕ → UInt64} (hinit : spaceInit rootPaddr physToVirt allocFrame = .ok space)
    (htrusted : Trusted space) {mem : π → Page} (hzero : ∀ root, physToVirt rootPaddr = some root →
      mem root = zeroPage) :
    ∃ root, tableFromPhys space space.rootPaddr = some root ∧ mem root = zeroPage := by
  have haligned : isAligned4k rootPaddr = true := by
    by_contra hodd
    rw [spaceInit, if_neg hodd] at hinit
    cases hinit
  rw [spaceInit, if_pos haligned] at hinit
  obtain rfl := Except.ok.inj hinit
  obtain ⟨root, hroot⟩ := htrusted.mapped rootPaddr ⟨haligned, Or.inr rfl⟩
  exact ⟨root, (if_pos haligned).trans hroot, hzero root hroot⟩

/-- Every call in every run answers and acts as on a map from addresses to frames. -/
theorem page_tables_refine_map {rootPaddr : UInt64} {physToVirt : UInt64 → Option π}
    {allocFrame : ℕ → UInt64} (hinit : spaceInit rootPaddr physToVirt allocFrame = .ok space)
    (htrusted : Trusted space) (mem : π → Page)
    (hzero : ∀ root, physToVirt rootPaddr = some root → mem root = zeroPage) :
    Refines space ⟨mem, 0⟩ (fun _ => none) ∧
      ∀ calls : List Call, ∃ M, Refines space (run space ⟨mem, 0⟩ calls) M ∧
        ∀ c, ∃ M', Answers M c (exec space c (run space ⟨mem, 0⟩ calls)).1 M' ∧
          Refines space (exec space c (run space ⟨mem, 0⟩ calls)).2 M' := by
  obtain ⟨root, hroot, hpage⟩ := root_of_spaceInit hinit htrusted hzero
  have hholds := holds_init hroot mem hpage
  refine ⟨hholds.refines, fun calls => ?_⟩
  obtain ⟨M, hM⟩ := holds_run htrusted calls hholds
  refine ⟨M, hM.refines, fun c => ?_⟩
  obtain ⟨M', hanswers, hM'⟩ := exec_step htrusted hM c
  exact ⟨M', hanswers, hM'.refines⟩

/-- Frames at their own addresses, and an allocator with three frames left. -/
def smallSpace : Space UInt64 where
  rootPaddr := 0x1000
  physToVirt := some
  allocFrame
    | 0 => 0x2000
    | 1 => 0x3000
    | 2 => 0x4000
    | _ => invalidPhys

theorem smallSpace_trusted : Trusted smallSpace where
  mapped f _ := ⟨f, rfl⟩
  injective f g t _ _ hf hg := Option.some.inj (hf.trans hg.symm)
  alloc
    | 0 => Or.inr (by decide)
    | 1 => Or.inr (by decide)
    | 2 => Or.inr (by decide)
    | _ + 3 => Or.inl rfl

theorem page_tables_refine_map_small : ∃ M,
    Refines smallSpace (run smallSpace ⟨fun _ => zeroPage, 0⟩ [.map 0x400000 0x5000 2]) M ∧
      ∀ c, ∃ M', Answers M c
          (exec smallSpace c (run smallSpace ⟨fun _ => zeroPage, 0⟩ [.map 0x400000 0x5000 2])).1
            M' ∧
        Refines smallSpace
          (exec smallSpace c (run smallSpace ⟨fun _ => zeroPage, 0⟩ [.map 0x400000 0x5000 2])).2
            M' :=
  (page_tables_refine_map (rfl : spaceInit 0x1000 some smallSpace.allocFrame = .ok smallSpace)
    smallSpace_trusted (fun _ => zeroPage) (fun _ _ => rfl)).2 [.map 0x400000 0x5000 2]

end Mcsos.Vmm
