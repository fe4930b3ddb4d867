import Mcsos.Lib.Run
import Mcsos.Pmm.Ownership

/-!
# Memory that was not free after boot

The bitmap has one bit for a frame: it cannot tell a frame that was handed out from one that was
never usable.  `pmm_free_frame` takes the address of any frame in use, so that keeping the memory of
the kernel from being freed is up to its callers.  `boot_reserved_kept_iff` says that nothing else
is needed of them.
-/

namespace Mcsos.Pmm

variable {n : ℕ} {boot pmm pmm' : PmmState n} {a f : ℕ}

/-- A call of the memory manager. -/
inductive Op where
  | alloc
  | reserve (base length : UInt64)
  | free (physAddr : UInt64)

/-- The state after a call. -/
def Op.step : Op → PmmState n → PmmState n
  | .alloc, pmm => (pmmAllocFrame pmm).2
  | .reserve base length, pmm => (pmmReserveRange pmm base.toNat length.toNat).2
  | .free physAddr, pmm => (pmmFreeFrame pmm physAddr.toNat).2

/-- `a` is the address of a frame other than the first one. -/
def IsPage (pmm : PmmState n) (a : ℕ) : Prop := a % pageSize = 0 ∧ a ≠ 0 ∧ a < pmm.maxPhys

/-- If the call frees a frame, then one that was free after boot. -/
def Op.FreesOwn (boot : PmmState n) : Op → PmmState n → Prop
  | .free physAddr, _ => IsPage boot physAddr.toNat → IsFree boot (physAddr.toNat / pageSize)
  | .alloc, _ => True
  | .reserve _ _, _ => True

/-- Only frames that were free after boot are free, and only such a frame is handed out; an
address that is not the one of a frame, or of the first one, is not freed. -/
structure Protected (boot pmm : PmmState n) : Prop where
  free : ∀ f, IsFree pmm f → IsFree boot f
  alloc : ∀ a pmm', pmmAllocFrame pmm = (some a, pmm') →
    a % pageSize = 0 ∧ IsFree boot (a / pageSize)
  refused : ∀ a, ¬ IsPage boot a → pmmFreeFrame pmm a = (false, pmm)

/-- What holds in all later states. -/
structure Later (boot pmm : PmmState n) : Prop where
  ok : PmmOk pmm
  maxPhys : pmm.maxPhys = boot.maxPhys
  frameCount : pmm.frameCount = boot.frameCount
  initialized : pmm.initialized = true

theorem IsPage.frame_lt (h : Later boot pmm) (hpage : IsPage boot a) :
    a / pageSize < pmm.frameCount := by
  have hbelow := hpage.2.2
  rw [← h.maxPhys, h.ok.maxPhys] at hbelow
  exact Nat.div_lt_of_lt_mul (by rwa [Nat.mul_comm])

theorem Later.leads {F : ℕ → Prop} (h : Later boot pmm) (hleads : Leads pmm pmm' F) :
    Later boot pmm' :=
  ⟨hleads.ok, hleads.maxPhys.trans h.maxPhys, hleads.frameCount.trans h.frameCount,
    hleads.initialized.trans h.initialized⟩

/-- `pmm_free_frame` frees the frame of every address of a frame in use. -/
theorem pmmFreeFrame_of_used (h : Later boot pmm) (hpage : IsPage boot a)
    (hused : ¬ IsFree pmm (a / pageSize)) :
    pmmFreeFrame pmm a = (true, markFrameFree pmm (a / pageSize)) := by
  have hset : pmm.bitmap.testBit (a / pageSize) = true := by
    rw [← Bool.not_eq_false]
    exact fun hclear => hused ⟨hpage.frame_lt h, hclear⟩
  obtain ⟨haligned, hnonzero, hbelow⟩ := hpage
  rw [← h.maxPhys] at hbelow
  have hrange : ¬ (a &&& (pageSize - 1) ≠ 0 ∨ a = 0 ∨ pmm.maxPhys ≤ a) := by
    rw [and_page_mask]
    simp [haligned, hnonzero, hbelow]
  unfold pmmFreeFrame
  rw [h.initialized, if_neg (by decide), if_neg hrange, hset, if_neg (by decide)]

theorem pmmFreeFrame_refused (h : Later boot pmm) (hpage : ¬ IsPage boot a) :
    pmmFreeFrame pmm a = (false, pmm) := by
  rcases pmmFreeFrame_cases h.ok a with heq | ⟨f, rfl, hne, hf, -, -⟩
  · exact heq
  · refine absurd ⟨Nat.mul_mod_left _ _, Nat.mul_ne_zero hne (by decide), ?_⟩ hpage
    rw [← h.maxPhys, h.ok.maxPhys]
    exact page_lt.mpr hf

/-- The free frames after a call: no new one, except the frame that `pmm_free_frame` was given. -/
theorem Op.step_leads (h : Later boot pmm) (o : Op) : ∃ F, Leads pmm (o.step pmm) F ∧
    ∀ f, F f → IsFree pmm f ∨
      ∃ physAddr, o = .free physAddr ∧ IsPage boot physAddr.toNat ∧
      f = physAddr.toNat / pageSize := by
  cases o with
  | alloc =>
    simp only [Op.step]
    rcases pmmAllocFrame_cases h.ok with heq | ⟨g, hg, heq⟩
    · rw [heq]
      exact ⟨_, leads_self h.ok, fun f hf => Or.inl hf⟩
    · rw [heq]
      exact ⟨_, takeFrame_leads h.ok hg, fun f hf => Or.inl hf.1⟩
  | reserve base length =>
    obtain ⟨F, hleads, hsub⟩ := pmmReserveRange_leads h.ok base length
    exact ⟨F, hleads, fun f hf => Or.inl (hsub f hf)⟩
  | free physAddr =>
    simp only [Op.step]
    by_cases hpage : IsPage boot physAddr.toNat
    · by_cases hfree : IsFree pmm (physAddr.toNat / pageSize)
      · rw [pmmFreeFrame_of_free h.ok hfree]
        exact ⟨_, leads_self h.ok, fun f hf => Or.inl hf⟩
      · rw [pmmFreeFrame_of_used h hpage hfree]
        refine ⟨_, markFrameFree_leads h.ok _, fun f hf => ?_⟩
        exact hf.imp_right fun heq => ⟨physAddr, rfl, hpage, heq⟩
    · rw [pmmFreeFrame_refused h hpage]
      exact ⟨_, leads_self h.ok, fun f hf => Or.inl hf⟩

theorem Later.step (h : Later boot pmm) (o : Op) : Later boot (o.step pmm) := by
  obtain ⟨F, hleads, -⟩ := o.step_leads h
  exact h.leads hleads

/-- The frame of an address that was given to `pmm_free_frame` is free afterwards. -/
theorem isFree_freed (h : Later boot pmm) {physAddr : UInt64} (hpage : IsPage boot physAddr.toNat) :
    IsFree ((Op.free physAddr).step pmm) (physAddr.toNat / pageSize) := by
  simp only [Op.step]
  by_cases hfree : IsFree pmm (physAddr.toNat / pageSize)
  · rwa [pmmFreeFrame_of_free h.ok hfree]
  · rw [pmmFreeFrame_of_used h hpage hfree, (markFrameFree_leads h.ok _).free]
    exact ⟨hpage.frame_lt h, Or.inr rfl⟩

theorem Later.protected (h : Later boot pmm) (hfree : ∀ f, IsFree pmm f → IsFree boot f) :
    Protected boot pmm where
  free := hfree
  alloc := by
    intro a pmm' hcall
    rcases pmmAllocFrame_cases h.ok with heq | ⟨f, hf, heq⟩
    · rw [heq] at hcall
      cases hcall
    · rw [heq] at hcall
      obtain rfl : f * pageSize = a := Option.some.inj (congrArg Prod.fst hcall)
      rw [Nat.mul_mod_left, Nat.mul_div_cancel f (by decide)]
      exact ⟨rfl, hfree f hf⟩
  refused := fun a => pmmFreeFrame_refused h

theorem Protected.step (h : Later boot pmm) (hprot : Protected boot pmm) {o : Op}
    (ho : o.FreesOwn boot pmm) : Protected boot (o.step pmm) := by
  obtain ⟨F, hleads, hsub⟩ := o.step_leads h
  refine (h.leads hleads).protected fun f hf => ?_
  rcases hsub f ((hleads.free f).mp hf).2 with hold | ⟨physAddr, rfl, hpage, rfl⟩
  · exact hprot.free f hold
  · exact ho hpage

/-- **Memory that was not free after boot.**  In every run of calls with arbitrary arguments, such a
frame is never free again and never handed out, exactly if `pmm_free_frame` is never given the
address of one. -/
theorem boot_reserved_kept_iff (regions : List BootMemRegion) (storage : Bytes n)
    (maxPhysBytes : UInt64) (boot : PmmState n)
    (hinit : pmmInitFromMap regions storage maxPhysBytes = some boot) (ops : List Op) :
    AllStates Op.step (Protected boot) ops boot ↔ AllSteps Op.step (Op.FreesOwn boot) ops boot := by
  have hbooted := pmmInitFromMap_booted hinit
  have hstart : Later boot boot := ⟨hbooted.ok, rfl, rfl, hbooted.initialized⟩
  constructor
  · refine AllStates.steps (I := Later boot) ?_ (fun o pmm h _ => h.step o) hstart
    intro o pmm h _ hprot
    cases o with
    | alloc => trivial
    | reserve base length => trivial
    | free physAddr => exact fun hpage => hprot.free _ (isFree_freed h hpage)
  · intro hsteps
    refine AllStates.mono (I := fun pmm => Later boot pmm ∧ Protected boot pmm) (fun _ h => h.2) ?_
    refine AllSteps.invariant ?_ ⟨hstart, hstart.protected fun _ hf => hf⟩ hsteps
    intro o pmm h ho
    exact ⟨h.1.step o, h.2.step h.1 ho⟩

/-- A frame is taken, freed and taken again. -/
theorem boot_reserved_kept_iff_again :
    ∃ boot : PmmState 1, pmmInitFromMap [⟨0, 0x3000, bootMemUsable⟩] Bytes.zero 0x4000 = some boot ∧
      AllStates Op.step (Protected boot) [.alloc, .free 0x1000, .alloc] boot := by
  obtain ⟨boot, hinit, hfree⟩ : ∃ boot : PmmState 1,
      pmmInitFromMap [⟨0, 0x3000, bootMemUsable⟩] Bytes.zero 0x4000 = some boot ∧ IsFree boot 1 :=
    ⟨_, rfl, by decide⟩
  refine ⟨boot, hinit, (boot_reserved_kept_iff _ _ _ boot hinit _).mpr ?_⟩
  exact ⟨trivial, fun _ => hfree, trivial, trivial⟩

/-- The second frame belongs to a reserved region.  It is freed without complaint and handed
out. -/
theorem reserved_frame_handed_out :
    ∃ boot : PmmState 1,
      pmmInitFromMap [⟨0, 0x1000, bootMemUsable⟩, ⟨0x1000, 0x1000, 2⟩] Bytes.zero
      0x2000 = some boot ∧ ¬ IsFree boot 1 ∧ (pmmFreeFrame boot 0x1000).1 = true ∧
      (pmmAllocFrame ((Op.free 0x1000).step boot)).1 = some 0x1000 :=
  ⟨_, rfl, by decide, by decide, by decide⟩

end Mcsos.Pmm
