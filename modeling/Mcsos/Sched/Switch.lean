import Mcsos.Lib.X64Straight

/-!
# The context switch

Model of `arch/x86_64/context_switch.S`.  The switch saves the stack pointer and the callee-saved
registers of one thread in its context and goes on with those of another.  It runs on the stack of
the old thread first and on that of the new one then, and interrupts may come at any of its
instructions; what one switch does is `Switches.switched`.
-/

namespace Mcsos.Sched

open X64 Stack

/-- `mcsos_context_t` -/
structure Context where
  rsp : UInt64
  rbp : UInt64
  rbx : UInt64
  r12 : UInt64
  r13 : UInt64
  r14 : UInt64
  r15 : UInt64
  rip : UInt64
  deriving DecidableEq, Repr

def Context.read (mem : Ram) (p : UInt64) : Context where
  rsp := mem.load (p + 0)
  rbp := mem.load (p + 8)
  rbx := mem.load (p + 16)
  r12 := mem.load (p + 24)
  r13 := mem.load (p + 32)
  r14 := mem.load (p + 40)
  r15 := mem.load (p + 48)
  rip := mem.load (p + 56)

/-- What the switch saves; `resume` is its label `1`. -/
def Context.of (resume : UInt64) (e : Cpu) : Context where
  rsp := e.reg .rsp
  rbp := e.reg .rbp
  rbx := e.reg .rbx
  r12 := e.reg .r12
  r13 := e.reg .r13
  r14 := e.reg .r14
  r15 := e.reg .r15
  rip := resume

/-- The registers that the switch saves and loads, in the order of the context. -/
def Context.regs (c : Context) : List (Reg × UInt64) :=
  [(.rsp, c.rsp), (.rbp, c.rbp), (.rbx, c.rbx), (.r12, c.r12), (.r13, c.r13), (.r14, c.r14),
    (.r15, c.r15)]

/-- `mcsos_context_switch` up to the jump, which stands in front of the label. -/
def switchCode (resume : UInt64) : List Instr :=
  [.lea resume .rax,
   .store .rsp 0 .rdi, .store .rbp 8 .rdi, .store .rbx 16 .rdi, .store .r12 24 .rdi,
   .store .r13 32 .rdi, .store .r14 40 .rdi, .store .r15 48 .rdi, .store .rax 56 .rdi,
   .load 0 .rsi .rsp, .load 8 .rsi .rbp, .load 16 .rsi .rbx, .load 24 .rsi .r12, .load 32 .rsi .r13,
   .load 40 .rsi .r14, .load 48 .rsi .r15]

/-- The switch is in memory: its code from `start` to the jump at `stop`, and `ret` at the label
behind it. -/
structure SwitchLoaded {κ : Type} (img : Image κ) (start stop resume : UInt64) : Prop where
  code : img.At start stop (switchCode resume)
  jump : img stop = some (.instr (.jmpMem 56 .rsi) resume)
  ret : ∃ next, img resume = some (.instr .ret next)

/-- `x` is a byte of the context at `p`. -/
def InContext (p x : UInt64) : Prop := (x - p).toNat < 64

variable {κ : Type} {img : Image κ} {cfuns : Behaviour κ} {irq : Cpu → Cpu → Prop}
  {G L : UInt64 → Prop} {start stop resume p x : UInt64} {room k : ℕ} {m₁ m₂ : Ram} {e t : Cpu}

/-! ### Contexts in memory -/

theorem inContext_word (hk : k < 8) (hx : (x - (p + UInt64.ofNat (8 * k))).toNat < 8) :
    InContext p x := by
  have hp := p.toNat_lt
  have hxlt := x.toNat_lt
  rw [UInt64.toNat_sub, UInt64.toNat_add, UInt64.toNat_ofNat'] at hx
  rw [InContext, UInt64.toNat_sub]
  omega

theorem load_context_congr (h : ∀ x, InContext p x → m₂ x = m₁ x) (hk : k < 8) :
    m₂.load (p + UInt64.ofNat (8 * k)) = m₁.load (p + UInt64.ofNat (8 * k)) := by
  refine Ram.load_congr fun i hi => h _ (inContext_word hk ?_)
  rw [Ram.toNat_add_sub_self (by omega)]
  exact hi

theorem Context.read_congr (h : ∀ x, InContext p x → m₂ x = m₁ x) :
    Context.read m₂ p = Context.read m₁ p := by
  simp only [Context.read, Context.mk.injEq]
  exact ⟨load_context_congr (k := 0) h (by decide), load_context_congr (k := 1) h (by decide),
    load_context_congr (k := 2) h (by decide), load_context_congr (k := 3) h (by decide),
    load_context_congr (k := 4) h (by decide), load_context_congr (k := 5) h (by decide),
    load_context_congr (k := 6) h (by decide), load_context_congr (k := 7) h (by decide)⟩

/-- The words of a context. -/
def Context.words (c : Context) : List UInt64 :=
  [c.rsp, c.rbp, c.rbx, c.r12, c.r13, c.r14, c.r15, c.rip]

/-- The memory behind the stores of the switch. -/
def saveContext (resume : UInt64) (e : Cpu) : Ram :=
  Ram.storeWords (e.reg .rdi) 0 (Context.of resume e).words e.mem

theorem saveContext_of_apart (hx : ¬ InContext (e.reg .rdi) x) : saveContext resume e x = e.mem x :=
  Ram.storeWords_of_far (by simp [Context.words]) (Nat.not_lt.mp hx)

theorem read_saveContext (resume : UInt64) (e : Cpu) :
    Context.read (saveContext resume e) (e.reg .rdi) = .of resume e := by
  have hword : ∀ j (hj : j < 8),
      (saveContext resume e).load (e.reg .rdi + UInt64.ofNat (8 * (0 + j))) =
      (Context.of resume e).words.get ⟨j, hj⟩ :=
    fun j hj => Ram.load_storeWords (by simp [Context.words]) hj
  simp only [Context.read, Context.of, Context.mk.injEq]
  exact ⟨hword 0 (by decide), hword 1 (by decide), hword 2 (by decide), hword 3 (by decide),
    hword 4 (by decide), hword 5 (by decide), hword 6 (by decide), hword 7 (by decide)⟩

/-! ### The code -/

/-- The context that the switch loads. -/
def loadedContext (resume : UInt64) (e : Cpu) : Context :=
  Context.read (saveContext resume e) (e.reg .rsi)

/-- The state behind the first `k` stores. -/
def saving (resume : UInt64) (e : Cpu) (k : ℕ) (rip : UInt64) : Cpu :=
  { e with
    reg := Function.update e.reg .rax resume
    rip := rip
    mem := Ram.storeWords (e.reg .rdi) 0 ((Context.of resume e).words.take k) e.mem }

/-- The state behind the first `k` loads. -/
def loading (resume : UInt64) (e : Cpu) (k : ℕ) (rip : UInt64) : Cpu :=
  { e with
    reg := ((loadedContext resume e).regs.take k).foldl (fun reg q => Function.update reg q.1 q.2)
      (Function.update e.reg .rax resume)
    rip := rip
    mem := saveContext resume e }

/-- The switch has loaded all registers and is about to jump. -/
def atJump (resume stop : UInt64) (e : Cpu) : Cpu := loading resume e 7 stop

theorem upTo_instr {i j : Instr} {a next next' : UInt64} (hstop : img stop = some (.instr j next'))
    (h : img a = some (.instr i next)) (hne : i ≠ j) : img.upTo stop a = some (.instr i next) := by
  rw [Image.upTo_of_ne, h]
  rintro rfl
  rw [h] at hstop
  injection hstop with hstop
  injection hstop with heq
  exact hne heq

/-- The switch gets to its jump. -/
theorem goes_switch (hloaded : SwitchLoaded img start stop resume) (he : e.rip = start)
    (hold : ∀ x, Below (e.reg .rsp) room x → L x)
    (hnew : ∀ x, Below (loadedContext resume e).rsp room x → L x)
    (hcontext : ∀ x, InContext (e.reg .rsi) x → ¬ (L x ∨ G x)) :
    Goes (img.upTo stop) room L G (· = atJump resume stop e) e := by
  obtain ⟨n₁, h1, n₂, h2, n₃, h3, n₄, h4, n₅, h5, n₆, h6, n₇, h7, n₈, h8, n₉, h9, m₁, g1, m₂, g2,
      m₃, g3, m₄, g4, m₅, g5,
    m₆, g6, m₇, g7, rfl⟩ := hloaded.code
  have hjump := hloaded.jump
  have hlive : ∀ k < 8, Live (fun x => L x ∨ G x) (e.reg .rsi + UInt64.ofNat (8 * k)) :=
    fun k hk x hx => hcontext x (inContext_word hk hx)
  have hreads : ∀ {k : ℕ}, k < 8 → ∀ a ∈ [e.reg .rsi + UInt64.ofNat (8 * k)],
      Live (fun x => L x ∨ G x) a := by
    intro k hk a ha
    rw [List.mem_singleton.mp ha]
    exact hlive k hk
  have hnone : ∀ a ∈ ([] : List UInt64), Live (fun x => L x ∨ G x) a :=
    fun a ha => absurd ha List.not_mem_nil
  rw [← he] at h1
  refine .instr hold (upTo_instr hjump h1 nofun) nofun hnone ?_
  change Goes _ _ _ _ _ (saving resume e 0 n₁)
  refine .instr hold (upTo_instr hjump h2 nofun) nofun hnone ?_
  change Goes _ _ _ _ _ (saving resume e 1 n₂)
  refine .instr hold (upTo_instr hjump h3 nofun) nofun hnone ?_
  change Goes _ _ _ _ _ (saving resume e 2 n₃)
  refine .instr hold (upTo_instr hjump h4 nofun) nofun hnone ?_
  change Goes _ _ _ _ _ (saving resume e 3 n₄)
  refine .instr hold (upTo_instr hjump h5 nofun) nofun hnone ?_
  change Goes _ _ _ _ _ (saving resume e 4 n₅)
  refine .instr hold (upTo_instr hjump h6 nofun) nofun hnone ?_
  change Goes _ _ _ _ _ (saving resume e 5 n₆)
  refine .instr hold (upTo_instr hjump h7 nofun) nofun hnone ?_
  change Goes _ _ _ _ _ (saving resume e 6 n₇)
  refine .instr hold (upTo_instr hjump h8 nofun) nofun hnone ?_
  change Goes _ _ _ _ _ (saving resume e 7 n₈)
  refine .instr hold (upTo_instr hjump h9 nofun) nofun hnone ?_
  change Goes _ _ _ _ _ (loading resume e 0 n₉)
  refine .instr hold (upTo_instr hjump g1 nofun) nofun (hreads (k := 0) (by decide)) ?_
  change Goes _ _ _ _ _ (loading resume e 1 m₁)
  refine .instr hnew (upTo_instr hjump g2 nofun) nofun (hreads (k := 1) (by decide)) ?_
  change Goes _ _ _ _ _ (loading resume e 2 m₂)
  refine .instr hnew (upTo_instr hjump g3 nofun) nofun (hreads (k := 2) (by decide)) ?_
  change Goes _ _ _ _ _ (loading resume e 3 m₃)
  refine .instr hnew (upTo_instr hjump g4 nofun) nofun (hreads (k := 3) (by decide)) ?_
  change Goes _ _ _ _ _ (loading resume e 4 m₄)
  refine .instr hnew (upTo_instr hjump g5 nofun) nofun (hreads (k := 4) (by decide)) ?_
  change Goes _ _ _ _ _ (loading resume e 5 m₅)
  refine .instr hnew (upTo_instr hjump g6 nofun) nofun (hreads (k := 5) (by decide)) ?_
  change Goes _ _ _ _ _ (loading resume e 6 m₆)
  refine .instr hnew (upTo_instr hjump g7 nofun) nofun (hreads (k := 6) (by decide)) ?_
  exact .done hnew rfl

/-- A call of the switch gets from `e` to the first state behind its jump. -/
def Switches (img : Image κ) (cfuns : Behaviour κ) (irq : Cpu → Cpu → Prop) (stop resume : UInt64)
    (e t : Cpu) : Prop :=
  ∃ d calls, Run (img.upTo stop) cfuns irq e calls d ∧ d.rip = stop ∧
    t = exec (.jmpMem 56 .rsi) resume d

/-- The effect of the switch: the registers and the address are those of the loaded context. -/
structure Switched (G : UInt64 → Prop) (room : ℕ) (resume : UInt64) (e t : Cpu) : Prop where
  rip : t.rip = (loadedContext resume e).rip
  regs : ∀ q ∈ (loadedContext resume e).regs, t.reg q.1 = q.2
  rdi : t.reg .rdi = e.reg .rdi
  rflags : t.rflags = e.rflags
  cs : t.cs = e.cs
  ss : t.ss = e.ss
  mem : ∀ x, ¬ Below (e.reg .rsp) room x → ¬ Below (loadedContext resume e).rsp room x → ¬ G x →
    t.mem x = saveContext resume e x

theorem Switches.switched (hloaded : SwitchLoaded img start stop resume) (hquiet : Quiet G room irq)
    (he : e.rip = start) (hold : ∀ x, Below (e.reg .rsp) room x → ¬ G x)
    (hnew : ∀ x, Below (loadedContext resume e).rsp room x → ¬ G x)
    (hcontext : ∀ x, InContext (e.reg .rsi) x →
      ¬ (Below (e.reg .rsp) room x ∨ Below (loadedContext resume e).rsp room x) ∧ ¬ G x)
    (h : Switches img cfuns irq stop resume e t) : Switched G room resume e t := by
  obtain ⟨d, calls, hrun, hd, rfl⟩ := h
  let L : UInt64 → Prop :=
    fun x => Below (e.reg .rsp) room x ∨ Below (loadedContext resume e).rsp room x
  have hlive : ∀ x, InContext (e.reg .rsi) x → ¬ (L x ∨ G x) :=
    fun x hx => not_or.mpr ⟨(hcontext x hx).1, (hcontext x hx).2⟩
  have hgoes :=
    goes_switch (L := L) (G := G) hloaded he (fun x hx => .inl hx) (fun x hx => .inr hx) hlive
  obtain ⟨d', hgoes', hsame⟩ := hgoes.run hquiet (fun x hx => hx.elim (hold x) (hnew x))
    (fun s hs => by rw [hs]; rfl) hrun (Same.refl _ e)
  obtain rfl := hgoes'.at_stop (hsame.rip ▸ hd)
  have hjump := hsame.exec (.jmpMem 56 .rsi) (fun a ha => ?_) resume
  · refine ⟨hjump.rip, fun q hq => ?_, congrFun hjump.reg .rdi, hjump.rflags, hjump.cs, hjump.ss,
      fun x h h' hG => ?_⟩
    · rw [hjump.reg]
      simp only [Context.regs, List.mem_cons, List.not_mem_nil, or_false] at hq
      rcases hq with rfl | rfl | rfl | rfl | rfl | rfl | rfl <;> rfl
    · exact hjump.mem x (not_or.mpr ⟨not_or.mpr ⟨h, h'⟩, hG⟩)
  · rw [List.mem_singleton.mp ha]
    exact fun x hx => hlive x (inContext_word (k := 7) (by decide) hx)

/-- An interrupt may come before its first instruction. -/
theorem Switches.after_irq {s : Cpu} (hirq : irq e s) (h : Switches img cfuns irq stop resume s t) :
    Switches img cfuns irq stop resume e t := by
  obtain ⟨d, calls, hrun, hd, ht⟩ := h
  exact ⟨d, calls, .irq hirq hrun, hd, ht⟩

/-- Left alone, the switch gets there, and saves the context. -/
theorem exists_switches (hloaded : SwitchLoaded img start stop resume) (he : e.rip = start)
    (hcontext : ∀ x, InContext (e.reg .rsi) x →
      ¬ (Below (e.reg .rsp) room x ∨ Below (loadedContext resume e).rsp room x) ∧ ¬ G x) :
    ∃ t, Switches img cfuns irq stop resume e t ∧ t.mem = saveContext resume e := by
  have hgoes : Goes (img.upTo stop) room
      (fun x => Below (e.reg .rsp) room x ∨ Below (loadedContext resume e).rsp room x)
      G (· = atJump resume stop e) e := goes_switch hloaded he
    (fun x hx => .inl hx) (fun x hx => .inr hx)
    (fun x hx => not_or.mpr ⟨(hcontext x hx).1, (hcontext x hx).2⟩)
  obtain ⟨d, hrun, rfl⟩ := hgoes.exists_run cfuns irq
  exact ⟨_, ⟨_, [], hrun, rfl, rfl⟩, rfl⟩

end Mcsos.Sched
