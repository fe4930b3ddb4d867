import Mcsos.Vmm.Refinement

/-!
# Access rights

The processor combines the rights of the four entries on the walk of an address (`effective`): a
page is writable, or open to user code, when all four entries say so, and it is not executable when
one of them says so.  `vmm_map_page` writes the rights that its caller asks for to the last entry,
and `vmm_query_page` reads only that one.

The entries of the upper levels come from `get_or_alloc_next_table`, which sets `VMM_PTE_WRITABLE`
and nothing else beside `VMM_PTE_PRESENT` (`Plain`).  So `VMM_PTE_WRITABLE` and `VMM_PTE_NO_EXECUTE`
of the last entry decide, but no page is open to user code, whatever its caller asks for.
-/

namespace Mcsos.Vmm

open Act Radix Relation

/-- The access rights of a page. -/
structure Rights where
  writable : Bool
  user : Bool
  noExecute : Bool
  deriving DecidableEq, Repr

namespace Rights

/-- The rights in an entry, or in the flags for `vmm_map_page`. -/
def ofFlags (e : UInt64) : Rights :=
  ⟨e &&& pteWritable != 0, e &&& pteUser != 0, e &&& pteNoExecute != 0⟩

/-- The rights that two entries give together. -/
def meet (a b : Rights) : Rights :=
  ⟨a.writable && b.writable, a.user && b.user, a.noExecute || b.noExecute⟩

/-- The rights in the entry of a table. -/
def ofTable : Rights := ⟨true, false, false⟩

theorem ofTable_meet (a : Rights) : ofTable.meet a = ⟨a.writable, false, a.noExecute⟩ := rfl

/-- Rights are in the bits outside of the address. -/
theorem ofFlags_congr {e e' : UInt64} (hw : e &&& pteWritable = e' &&& pteWritable)
    (hu : e &&& pteUser = e' &&& pteUser) (hn : e &&& pteNoExecute = e' &&& pteNoExecute) :
    ofFlags e = ofFlags e' := by
  rw [ofFlags, ofFlags, hw, hu, hn]

theorem ofFlags_flags (e : UInt64) : ofFlags (e &&& ~~~ pteAddrMask) = ofFlags e := by
  have hbit : ∀ b : UInt64, ~~~ pteAddrMask &&& b = b → e &&& ~~~ pteAddrMask &&& b = e &&& b := by
    intro b hb
    rw [UInt64.and_assoc, hb]
  exact ofFlags_congr (hbit _ (by decide)) (hbit _ (by decide)) (hbit _ (by decide))

theorem ofFlags_allowed (fl : UInt64) : ofFlags (ptePresent ||| (fl &&& allowed)) = ofFlags fl := by
  have hbit : ∀ b : UInt64, ptePresent &&& b = 0 → allowed &&& b = b →
      (ptePresent ||| (fl &&& allowed)) &&& b = fl &&& b := by
    intro b hpresent hallowed
    rw [or_and, hpresent, UInt64.and_assoc, hallowed, UInt64.zero_or]
  exact ofFlags_congr (hbit _ (by decide) (by decide)) (hbit _ (by decide) (by decide))
    (hbit _ (by decide) (by decide))

theorem ofFlags_tableEntry (f : UInt64) : ofFlags (tableEntry f) = ofTable := by
  have hbit : ∀ b : UInt64, pteAddrMask &&& b = 0 →
      tableEntry f &&& b = (ptePresent &&& b) ||| (pteWritable &&& b) := by
    intro b hb
    rw [tableEntry, or_and, or_and, and_and_of_disjoint f hb, UInt64.zero_or]
  rw [ofFlags, hbit _ (by decide), hbit _ (by decide), hbit _ (by decide)]
  decide

end Rights

variable {π : Type} {space : Space π} {s s' : State π} {root t : π} {v w p fl : UInt64}

/-- The rights that the processor finds on its walk for an address, if the page is mapped. -/
def effective (space : Space π) (s : State π) (vaddr : UInt64) : Option Rights := do
  let pml4 ← tableFromPhys space space.rootPaddr
  let e₄ := s.mem pml4 (idxPml4 vaddr)
  let pdpt ← child space e₄
  let e₃ := s.mem pdpt (idxPdpt vaddr)
  let pd ← child space e₃
  let e₂ := s.mem pd (idxPd vaddr)
  let pt ← child space e₂
  let e₁ := s.mem pt (idxPt vaddr)
  if e₁ &&& ptePresent ≠ 0 then
    some ((Rights.ofFlags e₄).meet
      ((Rights.ofFlags e₃).meet ((Rights.ofFlags e₂).meet (Rights.ofFlags e₁))))
  else none

/-! ## The entries of tables -/

/-- The entries of the upper levels have the rights that `get_or_alloc_next_table` writes. -/
def Plain (space : Space π) (root : π) (s : State π) : Prop :=
  ∀ l t i, l.length < 3 → tableAt (child space) root s.mem l = some t →
    s.mem t i &&& ptePresent ≠ 0 → Rights.ofFlags (s.mem t i) = Rights.ofTable

/-- Then the last entry decides, except about user code. -/
theorem effective_eq (h : TablesOk space root s) (hplain : Plain space root s) (hv : Valid v) :
    effective space s v =
      (pageMap space root s v).map fun m => Rights.ofTable.meet (Rights.ofFlags m.2) := by
  have hplain' : ∀ l {t u} {i : Fin 512}, l.length < 3 →
      tableAt (child space) root s.mem l = some t →
      child space (s.mem t i) = some u → Rights.ofFlags (s.mem t i) = Rights.ofTable :=
    fun l _ _ _ hl ht hu => hplain l _ _ hl ht (child_of_present hu).1
  rw [pageMap_apply hv, effective, h.rootTable]
  show (child space (s.mem root (idxPml4 v))).bind _ = _
  cases hpdpt : child space (s.mem root (idxPml4 v)) with
  | none => rw [path, tableAt, tableAt, tableAt, tableAt, Option.bind_some, hpdpt]; rfl
  | some pdpt =>
      have hat₁ : tableAt (child space) root s.mem [idxPml4 v] = some pdpt := by
        rw [tableAt, tableAt, Option.bind_some, hpdpt]
      show (child space (s.mem pdpt (idxPdpt v))).bind _ = _
      cases hpd : child space (s.mem pdpt (idxPdpt v)) with
      | none => rw [path, tableAt, tableAt, hat₁, Option.bind_some, hpd]; rfl
      | some pd =>
          have hat₂ : tableAt (child space) root s.mem [idxPdpt v, idxPml4 v] = some pd := by
            rw [tableAt, hat₁, Option.bind_some, hpd]
          show (child space (s.mem pd (idxPd v))).bind _ = _
          cases hpt : child space (s.mem pd (idxPd v)) with
          | none => rw [path, tableAt, hat₂, Option.bind_some, hpt]; rfl
          | some pt =>
              have hat₃ : tableAt (child space) root s.mem (path v) = some pt := by
                rw [path, tableAt, hat₂, Option.bind_some, hpt]
              rw [hat₃, Option.bind_some, Option.bind_some, leaf, hplain' [] (by decide) rfl hpdpt,
                hplain' _ (by simp) hat₁ hpd, hplain' _ (by simp) hat₂ hpt]
              dsimp only
              split_ifs
              · rw [Option.map_some, Rights.ofFlags_flags]
                rfl
              · rfl

theorem plain_init {mem : π → Page} (hzero : mem root = zeroPage) : Plain space root ⟨mem, 0⟩ := by
  intro l t i _ ht hpresent
  have hpage : mem t i = zeroPage i := by rw [(tableAt_of_zero hzero l t ht).2, hzero]
  exact absurd (zeroPage_absent i) (hpage ▸ hpresent)

section Steps

variable [DecidableEq π]

theorem Plain.step (hplain : Plain space root s) (hstep : TableStep space root s s') :
    Plain space root s' := by
  cases hstep with
  | refused => exact hplain
  | @installed l t i u h =>
      intro l' w j hl' hw hpresent
      rw [h.tableAt_eq l' (Nat.le_of_lt hl')] at hw
      split_ifs at hw with hnew
      · -- the new table has no entries
        obtain rfl := Option.some.inj hw
        rw [h.new_page] at hpresent
        exact absurd (zeroPage_absent j) hpresent
      · rw [h.old_page (Nat.le_of_lt hl') hw] at hpresent ⊢
        split_ifs at hpresent ⊢
        · exact Rights.ofFlags_tableEntry _
        · exact hplain l' w j hl' hw hpresent

theorem Plain.steps (hplain : Plain space root s)
    (hsteps : ReflTransGen (TableStep space root) s s') :
    Plain space root s' := by
  induction hsteps with
  | refl => exact hplain
  | tail _ hstep ih => exact ih.step hstep

/-- The entries of pages are not in the upper levels. -/
theorem Plain.set (hplain : Plain space root s) (h : TablesOk space root s) {pt : π}
    {l : List (Fin 512)} (hl : l.length = 3) (hpt : tableAt (child space) root s.mem l = some pt)
    (i : Fin 512) (e : UInt64) :
    Plain space root (s.set pt i e) := by
  intro l' t j hl' ht hpresent
  rw [State.set_mem, tableAt_setLeaf h.tree hl hpt l' (by omega)] at ht
  have hne : t ≠ pt := by
    refine h.tree.ne (by omega) (by omega) ht hpt ?_
    rintro rfl
    omega
  have hsame : (s.set pt i e).mem t = s.mem t := setEntry_of_ne_table hne
  rw [hsame] at hpresent ⊢
  exact hplain l' t j hl' ht hpresent

theorem Plain.exec (hplain : Plain space root s) (ht : Trusted space) (h : TablesOk space root s)
    (c : Call) :
    Plain space root (exec space c s).2 := by
  obtain ⟨s', hsteps, heq | ⟨pt, v, e, hpt, heq⟩⟩ := exec_cases ht h c
  · rw [heq]
    exact hplain.steps hsteps
  · rw [heq]
    exact (hplain.steps hsteps).set (Grown.steps h hsteps).ok rfl hpt _ e

theorem Plain.run (ht : Trusted space) (calls : List Call) :
    ∀ {s : State π} {M : PageMap}, Holds space root s M → Plain space root s →
      Plain space root (run space s calls) := by
  induction calls with
  | nil => exact fun _ hplain => hplain
  | cons c calls ih =>
      intro s M h hplain
      obtain ⟨M', -, h'⟩ := exec_step ht h c
      exact ih h' (hplain.exec ht h.ok c)

/-! ## The rights of a mapped page -/

/-- The page at `v` has the rights that were asked for, and the other mapped pages have theirs as
before. -/
def TakeEffect (space : Space π) (s s' : State π) (v fl : UInt64) : Prop :=
  effective space s' v = some (Rights.ofFlags fl) ∧
    ∀ w, Valid w → w ≠ v → effective space s w ≠ none → effective space s' w = effective space s w

/-- `vmm_map_page` can give all rights but those of user code. -/
theorem mapPage_takeEffect_iff (ht : Trusted space) {M : PageMap} (h : Holds space root s M)
    (hplain : Plain space root s) (hok : (mapPage space v p fl s).1 = .ok ()) :
    TakeEffect space s (mapPage space v p fl s).2 v fl ↔ fl &&& pteUser = 0 := by
  obtain ⟨M', hanswers, h'⟩ := exec_step ht h (.map v p fl)
  have hplain' : Plain space root (mapPage space v p fl s).2 := hplain.exec ht h.ok (.map v p fl)
  rw [exec, hok] at hanswers
  rw [exec] at h'
  cases hanswers with
  | mapped hv hp hfree =>
      have heffective : ∀ {w : UInt64}, Valid w → effective space (mapPage space v p fl s).2 w =
          (M.map v p fl w).map fun m => Rights.ofTable.meet (Rights.ofFlags m.2) := by
        intro w hw
        rw [effective_eq h'.ok hplain' hw, h'.map]
      have hpage : effective space (mapPage space v p fl s).2 v =
          some (Rights.ofTable.meet (Rights.ofFlags fl)) := by
        rw [heffective hv, PageMap.map, Function.update_self, Option.map_some,
          Rights.ofFlags_allowed]
      have hothers : ∀ w, Valid w → w ≠ v → effective space s w ≠ none →
          effective space (mapPage space v p fl s).2 w = effective space s w := by
        intro w hw hne _
        rw [heffective hw, PageMap.map, Function.update_of_ne hne,
          effective_eq h.ok hplain hw, h.map]
      have huser : (Rights.ofFlags fl).user = false ↔ fl &&& pteUser = 0 := bne_eq_false_iff_eq
      rw [TakeEffect, hpage, Rights.ofTable_meet, ← huser, Option.some_inj]
      constructor
      · intro heffect
        exact (congrArg Rights.user heffect.1).symm
      · intro hnouser
        refine ⟨?_, hothers⟩
        rw [← hnouser]

end Steps

/-- For every space that is built from a root without entries: after a call of `vmm_map_page` that
returns `VMM_MAP_OK` the rights are those that were asked for just when `VMM_PTE_USER` was not. -/
theorem rights_take_effect_iff [DecidableEq π] {rootPaddr : UInt64} {physToVirt : UInt64 → Option π}
    {allocFrame : ℕ → UInt64} (hinit : spaceInit rootPaddr physToVirt allocFrame = .ok space)
    (htrusted : Trusted space) (mem : π → Page)
    (hzero : ∀ root, physToVirt rootPaddr = some root → mem root = zeroPage) (calls : List Call)
    {v p fl : UInt64} (hok : (mapPage space v p fl (run space ⟨mem, 0⟩ calls)).1 = .ok ()) :
    TakeEffect space (run space ⟨mem, 0⟩ calls)
      (mapPage space v p fl (run space ⟨mem, 0⟩ calls)).2 v fl ↔
      fl &&& pteUser = 0 := by
  obtain ⟨root, hroot, hpage⟩ := root_of_spaceInit hinit htrusted hzero
  have hholds := holds_init hroot mem hpage
  obtain ⟨M, hM⟩ := holds_run htrusted calls hholds
  exact mapPage_takeEffect_iff htrusted hM (Plain.run htrusted calls hholds (plain_init hpage)) hok

/-- A second page in a table, writable and not executable. -/
theorem rights_take_effect_iff_small :
    TakeEffect smallSpace (run smallSpace ⟨fun _ => zeroPage, 0⟩ [.map 0x400000 0x5000 0])
        (mapPage smallSpace 0x401000 0x6000 0x8000000000000002
          (run smallSpace ⟨fun _ => zeroPage, 0⟩ [.map 0x400000 0x5000 0])).2 0x401000
            0x8000000000000002 ↔
      (0x8000000000000002 : UInt64) &&& pteUser = 0 :=
  rights_take_effect_iff (rfl : spaceInit 0x1000 some smallSpace.allocFrame = .ok smallSpace)
    smallSpace_trusted (fun _ => zeroPage) (fun _ _ => rfl) [.map 0x400000 0x5000 0] rfl

/-- A page that was mapped for user code is not open to it. -/
theorem user_page_without_user :
    spaceInit 0x1000 some smallSpace.allocFrame = .ok smallSpace ∧ Trusted smallSpace ∧
      (mapPage smallSpace 0x400000 0x5000 pteUser ⟨fun _ => zeroPage, 0⟩).1 = .ok () ∧
      ¬ TakeEffect smallSpace ⟨fun _ => zeroPage, 0⟩
        (mapPage smallSpace 0x400000 0x5000 pteUser ⟨fun _ => zeroPage, 0⟩).2 0x400000 pteUser := by
  refine ⟨rfl, smallSpace_trusted, rfl, fun heffect => ?_⟩
  have hnone :
      effective smallSpace (mapPage smallSpace 0x400000 0x5000 pteUser ⟨fun _ => zeroPage, 0⟩).2
      0x400000 = some ⟨false, false, false⟩ := rfl
  have hrights := Option.some.inj (hnone.symm.trans heffect.1)
  exact absurd hrights (by decide)

end Mcsos.Vmm
