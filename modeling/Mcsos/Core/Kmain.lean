import Mcsos.Core.Interrupts

/-!
# The run of the kernel

Model of `kmain`, which prints, sets up the devices, enables interrupts, and runs the selftests
until it halts.  In runs in which no interrupt is accepted while the console is locked, the
controllers are programmed before interrupts are enabled, only the timer gets through, and the
kernel counts it (`interrupts_served`), again and again (`timer_gets_through`).
-/

namespace Mcsos.Core

open Io Arch Pic8259

/-! ### kmain.c -/

/-- `KERNEL_ASSERT` -/
def kernelAssert (cond : Bool) (file : String) (lineNumber : UInt32) (expr : String) :
    Kernel Unit :=
  if cond then .ret ()
  else kernelPanicAt (some (chars file)) lineNumber
    (some (chars "assertion failed: " ++ chars expr)) 0xA55E4710

/-- What `kmain` finds: the addresses of the kernel and of its IDT, and how the checks in the
selftests come out; `elf` is the name of the error, if `m11_elf64_plan_load` fails. -/
structure Boot where
  kernelStart : UInt64
  kernelEnd : UInt64
  idtBase : UInt64
  idtLimit : UInt16
  elf : Option String
  acquired : Bool
  released : Bool
  seeded : Bool
  opened : Bool
  read : Bool
  closed : Bool
  badf : Bool
  noent : Bool
  created : Bool
  written : Bool
  sought : Bool
  readBack : Bool
  ramdisk : Bool

/-- `m4_selftest`, without the assertions on sizes of types. -/
def m4Selftest (boot : Boot) : Kernel Unit := do
  kernelAssert (boot.kernelEnd > boot.kernelStart) "kernel/core/kmain.c" 26
    "__kernel_end > __kernel_start"
  kernelAssert (boot.idtBase ≠ 0) "kernel/core/kmain.c" 29 "x86_64_idt_base_for_test() != 0u"
  kernelAssert (boot.idtLimit = 4095) "kernel/core/kmain.c" 30
    "x86_64_idt_limit_for_test() == 4095u"
  logWriteln (some (chars "[M4] selftest: IDT invariants passed"))

/-- What `m11_kernel_selftest` prints. -/
def m11KernelSelftest (boot : Boot) : Kernel Unit := do
  logWriteln (some (chars "[M11] elf loader integration selftest"))
  match boot.elf with
  | some error => do
    logWrite (some (chars "[M11] plan_load FAILED: "))
    logWriteln (some (chars error))
  | none => do
    logWriteln (some (chars "[M11] elf: ident ok"))
    logWriteln (some (chars "[M11] elf: phnum=1"))
    logWriteln
      (some (chars "[M11] elf: load segment vaddr=0x400000 filesz=16 memsz=4096 flags=0x5"))
    logWriteln (some (chars "[M11] elf: plan ok entry=0x401000"))
    logWriteln (some (chars "[M11] user image plan ready"))

/-- What `m12_sync_selftest` prints; no handler takes its lock. -/
def m12SyncSelftest (boot : Boot) : Kernel Unit := do
  (if boot.acquired then .ret ()
    else kernelPanicAt (some (chars "kernel/sync/m12_selftest.c")) 14
      (some (chars "M12 lockdep acquire failed")) 0)
  (if boot.released then .ret ()
    else kernelPanicAt (some (chars "kernel/sync/m12_selftest.c")) 22
      (some (chars "M12 lockdep release failed")) 0)
  logWriteln (some (chars "M12 sync selftest passed"))

/-- A check that ends the selftest if it fails. -/
def check (passed : Bool) (failed : String) (next : Kernel Unit) : Kernel Unit :=
  if passed then next else logWriteln (some (chars failed))

/-- What `m13_vfs_kernel_selftest` prints. -/
def m13VfsKernelSelftest (boot : Boot) : Kernel Unit := do
  logWriteln (some (chars "[M13] VFS/RAMFS kernel selftest begin"))
  logWriteln (some (chars "[M13] ramfs init: OK"))
  check boot.seeded "[M13] seed_file FAILED" do
  logWriteln (some (chars "[M13] seed_file /hello.txt: OK"))
  check boot.opened "[M13] sys_open FAILED" do
  logWriteln (some (chars "[M13] sys_open /hello.txt: OK"))
  check boot.read "[M13] sys_read FAILED" do
  logWriteln (some (chars "[M13] sys_read 5 bytes: OK"))
  check boot.closed "[M13] sys_close FAILED" do
  logWriteln (some (chars "[M13] sys_close: OK"))
  check boot.badf "[M13] EBADF check FAILED" do
  logWriteln (some (chars "[M13] EBADF after close: OK"))
  check boot.noent "[M13] ENOENT check FAILED" do
  logWriteln (some (chars "[M13] ENOENT missing file: OK"))
  check boot.created "[M13] create log.txt FAILED" do
  check boot.written "[M13] write log.txt FAILED" do
  check boot.sought "[M13] lseek log.txt FAILED" do
  check boot.readBack "[M13] read back log.txt FAILED" do
  logWriteln (some (chars "[M13] create/write/lseek/read /log.txt: OK"))
  logWriteln (some (chars "[M13] VFS/RAMFS kernel selftest: PASS"))

/-- What `m14_block_demo_init` prints. -/
def m14BlockDemoInit (boot : Boot) : Kernel Unit :=
  check boot.ramdisk "[M14] block layer init FAILED" do
  logWriteln (some (chars "[M14] block layer initialized"))
  logWriteln (some (chars "[M14] ram0: 64 blocks x 512 bytes registered"))
  logWriteln (some (chars "[M15] mcsfs1 linked into kernel"))
  logWriteln (some (chars "[M15] ready for integration"))
  logWriteln (some (chars "[M16] mcsfs1j linked into kernel"))
  logWriteln (some (chars "[M16] journal recovery support available"))

/-- What `x86_64_idt_init` prints. -/
def idtInitReport (boot : Boot) : Kernel Unit := do
  logKeyValueHex64 (some (chars "idt_base")) boot.idtBase
  logKeyValueHex64 (some (chars "idt_limit")) boot.idtLimit.toUInt64
  logWriteln (some (chars "[M4] IDT loaded"))

/-- What `kmain` prints before `cpu_cli`. -/
def kmainGreeting (boot : Boot) (rflags : UInt64) : Kernel Unit := do
  logWrite (some (chars "MCSOS"))
  logWrite (some (chars " "))
  logWrite (some (chars "260502"))
  logWrite (some (chars " "))
  logWrite (some (chars "M4"))
  logWriteln (some (chars " kernel entered"))
  logKeyValueHex64 (some (chars "kernel_start")) boot.kernelStart
  logKeyValueHex64 (some (chars "kernel_end")) boot.kernelEnd
  logKeyValueHex64 (some (chars "rflags_before_idt")) rflags
  idtInitReport boot

/-- `kmain` from `cpu_cli` up to `cpu_sti`. -/
def kmainDevices : Kernel Unit := do
  picRemap 0x20 0x28
  picMaskAll
  picUnmaskIrq 0
  pitConfigureHz 100

/-- `kmain` behind `cpu_sti`, up to `cpu_halt_forever`. -/
def kmainChecks (boot : Boot) : Kernel Unit := do
  logWriteln (some (chars "[M5] PIC/PIT initialized; interrupts enabled"))
  m4Selftest boot
  logWriteln (some (chars "[M4] IDT and exception dispatch path installed"))
  logWriteln (some (chars "[M4] ready for QEMU smoke test and GDB audit"))
  m11KernelSelftest boot
  m12SyncSelftest boot
  m13VfsKernelSelftest boot
  m14BlockDemoInit boot

/-- `kmain` -/
def kmain (boot : Boot) : Kernel Unit := do
  logInit
  .get fun vars => do
    kmainGreeting boot vars.rflags
    .setIf false do
      kmainDevices
      .setIf true do
        kmainChecks boot
        .setIf false .halt

/-! ### Where kmain may be interrupted -/

theorem kernelAssert_consoleCode (cond : Bool) (file : String) (lineNumber : UInt32)
    (expr : String) :
    ConsoleCode (kernelAssert cond file lineNumber expr) :=
  ret_consoleCode.ite (kernelPanicAt_consoleCode _ _ _ _)

theorem check_consoleCode (passed : Bool) (failed : String) {next : Kernel Unit}
    (h : ConsoleCode next) :
    ConsoleCode (check passed failed next) :=
  h.ite (logWriteln_consoleCode _)

section

variable {δ ε ι : Type} {D : Device δ ε ι}

theorem m4Selftest_consoleCode (boot : Boot) : ConsoleCode (m4Selftest boot) :=
  (kernelAssert_consoleCode _ _ _ _).bind <| (kernelAssert_consoleCode _ _ _ _).bind <|
    (kernelAssert_consoleCode _ _ _ _).bind <| logWriteln_consoleCode _

theorem m11KernelSelftest_consoleCode (boot : Boot) : ConsoleCode (m11KernelSelftest boot) := by
  refine (logWriteln_consoleCode _).bind ?_
  cases boot.elf with
  | some error => exact (logWrite_consoleCode _).bind (logWriteln_consoleCode _)
  | none =>
      refine (logWriteln_consoleCode _).bind ((logWriteln_consoleCode _).bind ?_)
      exact (logWriteln_consoleCode _).bind
        ((logWriteln_consoleCode _).bind (logWriteln_consoleCode _))

theorem m12SyncSelftest_consoleCode (boot : Boot) : ConsoleCode (m12SyncSelftest boot) :=
  (ret_consoleCode.ite (kernelPanicAt_consoleCode _ _ _ _)).bind <|
    (ret_consoleCode.ite (kernelPanicAt_consoleCode _ _ _ _)).bind <| logWriteln_consoleCode _

theorem m13VfsKernelSelftest_consoleCode (boot : Boot) :
    ConsoleCode (m13VfsKernelSelftest boot) := by
  refine (logWriteln_consoleCode _).bind ((logWriteln_consoleCode _).bind ?_)
  refine check_consoleCode _ _ ((logWriteln_consoleCode _).bind ?_)
  refine check_consoleCode _ _ ((logWriteln_consoleCode _).bind ?_)
  refine check_consoleCode _ _ ((logWriteln_consoleCode _).bind ?_)
  refine check_consoleCode _ _ ((logWriteln_consoleCode _).bind ?_)
  refine check_consoleCode _ _ ((logWriteln_consoleCode _).bind ?_)
  refine check_consoleCode _ _ ((logWriteln_consoleCode _).bind ?_)
  refine check_consoleCode _ _
    (check_consoleCode _ _ (check_consoleCode _ _ (check_consoleCode _ _ ?_)))
  exact (logWriteln_consoleCode _).bind (logWriteln_consoleCode _)

theorem m14BlockDemoInit_consoleCode (boot : Boot) : ConsoleCode (m14BlockDemoInit boot) := by
  refine check_consoleCode _ _
    ((logWriteln_consoleCode _).bind ((logWriteln_consoleCode _).bind ?_))
  refine (logWriteln_consoleCode _).bind ((logWriteln_consoleCode _).bind ?_)
  exact (logWriteln_consoleCode _).bind (logWriteln_consoleCode _)

theorem kmainChecks_consoleCode (boot : Boot) : ConsoleCode (kmainChecks boot) := by
  refine (logWriteln_consoleCode _).bind ((m4Selftest_consoleCode boot).bind ?_)
  refine (logWriteln_consoleCode _).bind ((logWriteln_consoleCode _).bind ?_)
  refine (m11KernelSelftest_consoleCode boot).bind ((m12SyncSelftest_consoleCode boot).bind ?_)
  exact (m13VfsKernelSelftest_consoleCode boot).bind (m14BlockDemoInit_consoleCode boot)

theorem kmainGreeting_prints (boot : Boot) (rflags : UInt64) :
    ∃ text, Prints Free (kmainGreeting boot rflags) text :=
  ⟨_, (logWrite_prints _).bind <| (logWrite_prints _).bind <| (logWrite_prints _).bind <|
    (logWrite_prints _).bind <| (logWrite_prints _).bind <| (logWriteln_prints _).bind <|
    (logKeyValueHex64_prints _ _).bind <| (logKeyValueHex64_prints _ _).bind <|
    (logKeyValueHex64_prints _ _).bind <| (logKeyValueHex64_prints _ _).bind <|
    (logKeyValueHex64_prints _ _).bind <| logWriteln_prints _⟩

theorem kmainGreeting_consoleCode (boot : Boot) (rflags : UInt64) :
    ConsoleCode (kmainGreeting boot rflags) := by
  obtain ⟨text, h⟩ := kmainGreeting_prints boot rflags
  exact h.consoleCode fun _ h => h

section

variable {safe : Pair → Prop} {base baseSlave : UInt8} {imr imrSlave : Fin 8 → Bool} {p : Pair}

/-- The controllers are as `Idle` says, with interrupts disabled. -/
def SetUp (base baseSlave : UInt8) (imr imrSlave : Fin 8 → Bool) (on : Bool) (c : Pair) : Prop :=
  on = false ∧ ∃ p : Pair, c = p.control ∧ p.Idle base baseSlave imr imrSlave

theorem picRemap_guards (offset1 offset2 : UInt32) (c : Pair) :
    (picRemap offset1 offset2).Guards (picView D) safe
    (SetUp (offset1.toUInt8 &&& 0xF8) (offset2.toUInt8 &&& 0xF8) c.master.imr c.slave.imr)
      false c := by
  refine ⟨nofun, fun masterMask hmaster => ⟨nofun, fun slaveMask hslave => ?_⟩⟩
  -- interrupts are disabled, so the masks that were read are still those of the chips
  obtain rfl := hmaster.1 rfl
  obtain rfl := hslave.2 rfl
  refine ⟨nofun, nofun, nofun, nofun, nofun, nofun, nofun, nofun, nofun, ?_⟩
  refine ⟨nofun, nofun, nofun, nofun, nofun, nofun, nofun, nofun, nofun, rfl, _, rfl, ?_⟩
  exact ⟨⟨rfl, rfl, rfl, bits_byte _, rfl⟩, ⟨rfl, rfl, rfl, bits_byte _, rfl⟩⟩

theorem out_masterData (v : UInt8) (p : Pair) : (picView D).out pic1Data v p.control =
    Pair.control { p with master := p.master.writeData v } :=
  Pair.control_out pic1Data v p

theorem out_slaveData (v : UInt8) (p : Pair) : (picView D).out pic2Data v p.control =
    Pair.control { p with slave := p.slave.writeData v } :=
  Pair.control_out pic2Data v p

theorem picMaskAll_guards (h : p.Idle base baseSlave imr imrSlave) :
    picMaskAll.Guards (picView D) safe (SetUp base baseSlave (fun _ => true) fun _ => true) false
      p.control := by
  have hidle := (h.writeMaster 0xFF).writeSlave 0xFF
  rw [bits_ones] at hidle
  refine ⟨nofun, nofun, rfl, _, ?_, hidle⟩
  rw [out_masterData, out_slaveData]

/-- An input of the first controller. -/
theorem picUnmaskIrq_guards (i : Fin 8) (h : p.Idle base baseSlave imr imrSlave) :
    (picUnmaskIrq (UInt8.ofNat i)).Guards (picView D) safe
      (SetUp base baseSlave (Function.update imr i false) imrSlave) false p.control := by
  have hlow : UInt8.ofNat i < 8 := by
    revert i
    decide
  rw [picUnmaskIrq]
  simp only [if_pos hlow]
  refine ⟨nofun, fun v hv => ⟨nofun, rfl, _, out_masterData _ p, ?_⟩⟩
  have hread : bits v = imr := by
    rw [hv.1 rfl]
    exact (bits_byte _).trans h.master.imr
  have hidle := h.writeMaster (v &&& ~~~((1 : UInt32) <<< (UInt8.ofNat i).toUInt32).toUInt8)
  rwa [bits_clear, hread] at hidle

/-- The timer does not show on the controllers. -/
theorem pitConfigureHz_guards (hz : UInt32) (h : p.Idle base baseSlave imr imrSlave) :
    (pitConfigureHz hz).Guards (picView D) safe (SetUp base baseSlave imr imrSlave) false
      p.control :=
  ⟨nofun, nofun, nofun, rfl, p, rfl, h⟩

/-- Only the input of the timer is not masked. -/
def timerOnly (i : Fin 8) : Bool := i.val ≠ 0

theorem kmainDevices_guards (c : Pair) :
    kmainDevices.Guards (picView D) safe (SetUp 0x20 0x28 timerOnly fun _ => true) false c := by
  refine (picRemap_guards 0x20 0x28 c).bind fun _ on c => ?_
  rintro ⟨rfl, p, rfl, hp⟩
  refine (picMaskAll_guards hp).bind fun _ on c => ?_
  rintro ⟨rfl, p, rfl, hp⟩
  refine (picUnmaskIrq_guards 0 hp).bind fun _ on c => ?_
  rintro ⟨rfl, p, rfl, hp⟩
  have hmasks : Function.update (fun _ => true) 0 false = timerOnly := by
    funext i
    revert i
    decide
  rw [hmasks] at hp
  exact pitConfigureHz_guards 100 hp

/-- Where `kmain` may be interrupted the controllers are programmed. -/
theorem kmain_guards (boot : Boot) (p : Pair) :
    (kmain boot).Guards (picView D) (Programmed timerOnly fun _ => true)
    (fun on c => on = true → Programmed timerOnly (fun _ => true) c) false p.control := by
  have hinit : logInit.Guards (picView D) (Programmed timerOnly fun _ => true)
      (fun on c => on = false ∧ c = p.control) false p.control :=
    ⟨nofun, nofun, nofun, nofun, nofun, nofun, nofun, rfl, rfl⟩
  refine hinit.bind fun _ on c h => ?_
  rw [h.1, h.2]
  refine ⟨nofun, fun vars => ?_⟩
  refine ((kmainGreeting_consoleCode boot vars.rflags).guards (fun v => out_com1 v p) nofun).bind
    fun _ on c h => ?_
  rw [h.1, h.2]
  refine ⟨nofun, (kmainDevices_guards p.control).bind fun _ on c => ?_⟩
  rintro ⟨rfl, p, rfl, hp⟩
  have hsafe : Programmed timerOnly (fun _ => true) p.control := Pair.idle_control.mpr hp
  refine ⟨nofun, ((kmainChecks_consoleCode boot).guards (fun v => out_com1 v p) fun _ => hsafe).bind
    fun _ on c h => ?_⟩
  rw [h.1, h.2]
  exact ⟨fun _ => hsafe, nofun⟩

end

/-! ### Runs of the kernel -/

/-- All checks of the selftests pass. -/
def passingBoot : Boot :=
  ⟨0x100000, 0x200000, 0x180000, 4095, none, true, true, true, true, true, true, true, true, true,
    true, true, true, true⟩

/-- The controllers before they are initialised, with their masks set. -/
def uninitialised : Pair :=
  let chip : Chip :=
    ⟨fun _ => false, fun _ => false, fun _ => true, 0, .ready, false, false, false, false⟩
  ⟨chip, chip, false, false⟩

theorem kmain_brackets (boot : Boot) : (kmain boot).Brackets (fun _ => false) fun _ => false := by
  have hinit : logInit.Brackets (fun _ => false) fun _ => false := rfl
  refine hinit.bind fun _ vars => ?_
  refine ((kmainGreeting_consoleCode boot vars.rflags).brackets _ free_false).bind fun _ => ?_
  have hdevices : kmainDevices.Brackets (fun _ => false) fun _ => false := fun _ _ _ => rfl
  refine hdevices.bind fun _ => ?_
  exact ((kmainChecks_consoleCode boot).brackets _ free_false).bind fun _ => trivial

/-- `kmain` enables interrupts, with no lock taken, and does not leave them enabled at its end. -/
theorem kmain_starts (boot : Boot) : (kmain boot).Starts fun _ => false := by
  have hrest : (kmainChecks boot >>= fun _ => .setIf false .halt).RunsOn :=
    (kmainChecks_consoleCode boot).runsOn trivial
  have hinit : ∀ f : Unit → Kernel Unit, (f ()).Starts (fun _ => false) →
      (logInit >>= f).Starts fun _ => false := fun _ hf => hf
  refine hinit _ fun vars => ?_
  obtain ⟨text, hprints⟩ := kmainGreeting_prints boot vars.rflags
  refine hprints.within.starts (hprints.brackets _ free_false) fun _ _ _ _ => ?_
  exact ⟨free_false, hrest⟩

theorem kmain_keeps (boot : Boot) : (kmain boot).Keeps := by
  have hinit : logInit.Keeps := trivial
  refine hinit.bind fun _ vars => ?_
  refine (kmainGreeting_consoleCode boot vars.rflags).keeps.bind fun _ => ?_
  have hdevices : kmainDevices.Keeps := fun _ _ _ => trivial
  refine hdevices.bind fun _ => ?_
  exact (kmainChecks_consoleCode boot).keeps.bind fun _ => trivial

/-- Only interrupts of the timer get through, and spurious ones. -/
theorem genuine_timerOnly {frame : TrapFrame} (h : Genuine timerOnly (fun _ => true) frame) :
    frame.vector = 32 ∨ frame.vector = 39 := by
  rcases h with ⟨i, hvector, hi⟩ | ⟨i, -, h2, -⟩
  · rcases hi with hi | rfl
    · have hzero : i = 0 := Fin.ext (of_not_not (of_decide_eq_false hi))
      rw [hzero] at hvector
      exact .inl hvector
    · exact .inr hvector
  · cases h2

theorem foldl_afterTrap (served : List TrapFrame) (vars : Vars) :
    (served.foldl (fun vars frame => afterTrap frame vars) vars).trapCount =
        vars.trapCount + UInt64.ofNat served.length ∧
      (served.foldl (fun vars frame => afterTrap frame vars) vars).ticks =
        vars.ticks + UInt64.ofNat (served.countP fun frame => frame.vector = 32) := by
  induction served generalizing vars with
  | nil => simp
  | cons frame served ih =>
      obtain ⟨hcount, hticks⟩ := ih (afterTrap frame vars)
      rw [List.foldl_cons, hcount, hticks, List.length_cons, List.countP_cons, UInt64.ofNat_add,
        UInt64.ofNat_add]
      refine ⟨?_, ?_⟩
      · rw [UInt64.add_comm (UInt64.ofNat served.length), ← UInt64.add_assoc]
        rfl
      · rw [UInt64.add_comm (UInt64.ofNat (List.countP _ served)), ← UInt64.add_assoc]
        by_cases htimer : frame.vector = 32
        · simp [afterTrap, htimer]
        · simp [afterTrap, htimer]

/-- The kernel was interrupted by the timer and by spurious interrupts only, and has counted
them. -/
def Counted (vars₀ : Vars) : Config Lock Vars (Board δ) TrapFrame → Prop
  | .running _ m served =>
    (∀ frame ∈ served, frame.vector = 32 ∨ frame.vector = 39) ∧
      m.vars.trapCount = vars₀.trapCount + UInt64.ofNat served.length ∧
      m.vars.ticks = vars₀.ticks + UInt64.ofNat (served.countP fun frame => frame.vector = 32)
  | .halted _ => False
  | .spinning _ _ => False

/-- The kernel runs with interrupts enabled; the controllers are programmed, and have nothing in
service. -/
def Ticking : Config Lock Vars (Board δ) TrapFrame → Prop
  | .running p m _ =>
    m.enabled = true ∧ p.RunsOn ∧ m.dev.pics.Idle 0x20 0x28 timerOnly fun _ => true
  | .halted _ => False
  | .spinning _ _ => False

/-- What is known of the kernel in every state. -/
abbrev KernelGuarded (D : Device δ ε ι) (vars₀ : Vars) :
    Config Lock Vars (Board δ) TrapFrame → Prop :=
  Config.Guarded (picView D) (Programmed timerOnly fun _ => true) (Genuine timerOnly fun _ => true)
    afterTrap vars₀

/-- The state that `kmain` starts in. -/
theorem kmain_guarded (D : Device δ ε ι) (boot : Boot) {m : Machine Lock Vars (Board δ)}
    (hfree : ∀ l, m.held l = false) (hdisabled : m.enabled = false) :
    KernelGuarded D m.vars (.running (kmain boot) m []) := by
  obtain hheld : m.held = fun _ => false := funext hfree
  refine ⟨?_, kmain_keeps boot, ?_, by simp, rfl⟩
  · rw [hheld]
    exact kmain_brackets boot
  · rw [hdisabled]
    exact kmain_guards boot m.dev.pics

theorem kmain_booting (boot : Boot) {m : Machine Lock Vars (Board δ)}
    (hfree : ∀ l, m.held l = false) (hdisabled : m.enabled = false) :
    (Config.running (kmain boot) m ([] : List TrapFrame)).Booting := by
  obtain hheld : m.held = fun _ => false := funext hfree
  refine ⟨hdisabled, rfl, ?_⟩
  rw [hheld]
  exact kmain_starts boot

section

variable {vars₀ : Vars} {c : Config Lock Vars (Board δ) TrapFrame}

theorem Counted.of_guarded (h : KernelGuarded D vars₀ c) : Counted vars₀ c := by
  cases c with
  | running p m served =>
      obtain ⟨-, -, -, hgenuine, hvars⟩ := h
      obtain ⟨hcount, hticks⟩ := foldl_afterTrap served vars₀
      refine ⟨fun frame hframe => genuine_timerOnly (hgenuine frame hframe), ?_, ?_⟩
      · rw [hvars, hcount]
      · rw [hvars, hticks]
  | halted m => exact h
  | spinning l m => exact h

/-- Where it may be interrupted the kernel is ticking. -/
theorem idle_of_guarded {p : Kernel Unit} {m : Machine Lock Vars (Board δ)}
    {served : List TrapFrame} (h : KernelGuarded D vars₀ (.running p m served))
    (hon : m.enabled = true) :
    m.dev.pics.Idle 0x20 0x28 timerOnly fun _ => true :=
  Pair.idle_control.mp (h.2.2.1.safe_of_on (fun _ _ h => h) hon)

theorem Ticking.of_running (h : KernelGuarded D vars₀ c) (hrunning : c.Running) : Ticking c := by
  cases c with
  | running p m served => exact ⟨hrunning.1, hrunning.2, idle_of_guarded h hrunning.1⟩
  | halted m => exact h
  | spinning l m => exact h

/-- What the kernel, left alone, goes through before it runs with interrupts enabled. -/
theorem guarded_replicate (h : KernelGuarded D vars₀ c) (k : ℕ) :
    KernelGuarded D vars₀ ((List.replicate k Event.step).foldl
      (fun c e => Config.next (board D) handler e c) c) :=
  (Config.guarded_run (handler_serves timerOnly fun _ => true) h
    (Config.acceptsFree_replicate k c)).last

end

/-- **The kernel under interrupts.**  Let `kmain` run, whatever devices do, and whatever the
controllers were programmed for before, and let no interrupt be accepted while the console is
locked.  Then the kernel boots first, and is booting until it is ticking, to which it comes if it is
left alone; or it has stopped, with interrupts disabled for good, at its end or in a panic.  In
every state it was interrupted by the timer and by spurious interrupts only, and has counted
them. -/
theorem interrupts_served (D : Device δ ε ι) (boot : Boot) (m : Machine Lock Vars (Board δ))
    (hfree : ∀ l, m.held l = false) (hdisabled : m.enabled = false)
    (events : List (Event (BoardEvent ε)))
    (haccepts : AllSteps (Config.next (board D) handler) (Config.AcceptsFree (board D)) events
      (.running (kmain boot) m [])) :
    (Config.running (kmain boot) m ([] : List TrapFrame)).Booting ∧
      AllStates (Config.next (board D) handler) (fun c => Counted m.vars c ∧
        ((c.Booting ∧ ∃ k, Ticking ((List.replicate k Event.step).foldl
            (fun c e => Config.next (board D) handler e c) c)) ∨
          Ticking c ∨ c.Stopped)) events (.running (kmain boot) m []) := by
  have hboot := kmain_booting boot hfree hdisabled
  refine ⟨hboot, (Config.staged_run (handler_serves timerOnly fun _ => true)
    (kmain_guarded D boot hfree hdisabled) hboot haccepts).mono fun c hc => ?_⟩
  obtain ⟨hguarded, hstage⟩ := hc
  refine ⟨.of_guarded hguarded, ?_⟩
  rcases hstage with hbooting | hrunning | hstopped
  · -- left alone it accepts no interrupt, so the run goes on guarded to where it is ticking
    obtain ⟨k, p, m', hsteps, hrunning, -⟩ := hbooting.comesToRun
    refine .inl ⟨hbooting, k, ?_⟩
    have hlast := guarded_replicate hguarded k
    rw [hsteps] at hlast ⊢
    exact .of_running hlast hrunning
  · exact .inr (.inl (.of_running hguarded hrunning))
  · exact .inr (.inr hstopped)

/-- The timer requests an interrupt, and the processor looks for one. -/
def timerRequest : List (Event (BoardEvent ε)) :=
  [.env (.line (.raise timer)), .env (.line .sample), .intr]

/-- A request of the timer that is seen while nothing is in service and no lock is taken. -/
theorem timer_served (D : Device δ ε ι) (p : Kernel Unit) {m : Machine Lock Vars (Board δ)}
    (served : List TrapFrame) (hfree : ∀ l, m.held l = false) (hon : m.enabled = true)
    (hidle : m.dev.pics.Idle 0x20 0x28 timerOnly fun _ => true) : ∃ m' frame,
    timerRequest.foldl (fun c e => Config.next (board D) handler e c) (.running p m served) =
        .running p m' (served ++ [frame]) ∧
      frame.vector = 32 ∧ m'.vars.ticks = m.vars.ticks + 1 ∧ m'.enabled = true ∧
      ∀ l, m'.held l = false := by
  obtain ⟨pics, hack⟩ := hidle.ack_raise rfl
  -- the state in which the processor asks the controllers
  let dev : Board δ := { m.dev with pics := (m.dev.pics.env (.raise timer)).env .sample }
  have hboard :
      (board D).ack dev = some (interruptFrame m.dev.regs 0x20, { dev with pics := pics }) := by
    simp only [board, dev, hack]
    rfl
  have hsafe : Programmed timerOnly (fun _ => true) ((picView D).view dev) := by
    change dev.pics.control.Idle 0x20 0x28 timerOnly fun _ => true
    rw [Pair.control_env, Pair.control_env, Pair.idle_control]
    exact hidle
  obtain ⟨-, m', hrun, hheld, hvars, -⟩ :=
    handler_serves timerOnly (fun _ => true) { m with dev := dev } _ _ hfree hsafe hboard
  refine ⟨{ m' with enabled := true }, interruptFrame m.dev.regs 0x20, ?_, rfl, ?_, rfl, ?_⟩
  · change Config.next (board D) handler .intr (.running p { m with dev := dev } served) = _
    simp only [Config.next, hon, if_true, hboard, Config.accept, hrun]
  · rw [hvars]
    rfl
  · exact fun l => (congrFun hheld l).trans (hfree l)

/-- A booting kernel that is left alone for some steps serves the timer then. -/
theorem timer_served_first (D : Device δ ε ι) {vars₀ : Vars}
    {c : Config Lock Vars (Board δ) TrapFrame} (hguarded : KernelGuarded D vars₀ c)
    (hbooting : c.Booting) : ∃ k p m' frame, (List.replicate k Event.step ++ timerRequest).foldl
        (fun c e => Config.next (board D) handler e c) c = .running p m' [frame] ∧
      frame.vector = 32 ∧ m'.vars.ticks = vars₀.ticks + 1 ∧ m'.enabled = true ∧
      (∀ l, m'.held l = false) ∧
      AllSteps (Config.next (board D) handler) (Config.AcceptsFree (board D))
        (List.replicate k Event.step ++ timerRequest) c := by
  obtain ⟨k, p, m, hsteps, hrunning, hfree⟩ := hbooting.comesToRun
  have hlast := guarded_replicate hguarded k
  have hserved : c.served = [] := by
    cases c with
    | running p m served => exact hbooting.2.1
    | halted m => rfl
    | spinning l m => rfl
  rw [hserved] at hsteps hrunning
  rw [hsteps] at hlast
  obtain ⟨m', frame, htimer, hvector, hticks, hon, hfree'⟩ :=
    timer_served D p [] hfree hrunning.1 (idle_of_guarded hlast hrunning.1)
  -- no interrupt was served on the way, so nothing is counted yet
  have hcount : m.vars.ticks = vars₀.ticks := by
    have hnone := (Counted.of_guarded hlast).2.2
    simpa using hnone
  refine ⟨k, p, m', frame, ?_, hvector, by rw [hticks, hcount], hon, hfree', ?_⟩
  · rw [List.foldl_append, hsteps, htimer]
    rfl
  · refine (Config.acceptsFree_replicate k c).append ?_
    rw [hsteps]
    exact ⟨trivial, trivial, fun _ _ => hfree, trivial⟩

/-- **The timer gets through.**  In the runs of `interrupts_served`, a request of the timer is never
held back by an earlier interrupt: wherever interrupts are enabled and the console is not locked, it
is served as soon as it is seen, and counts as one more tick.  A kernel that is booting comes to
this, if it is left alone for some steps. -/
theorem timer_gets_through (D : Device δ ε ι) (boot : Boot) (m : Machine Lock Vars (Board δ))
    (hfree : ∀ l, m.held l = false) (hdisabled : m.enabled = false)
    (events : List (Event (BoardEvent ε)))
    (haccepts : AllSteps (Config.next (board D) handler) (Config.AcceptsFree (board D)) events
      (.running (kmain boot) m [])) :
    (Config.running (kmain boot) m ([] : List TrapFrame)).Booting ∧
      AllStates (Config.next (board D) handler) (fun c =>
        (∀ p m' served, c = .running p m' served → m'.enabled = true → (∀ l, m'.held l = false) →
          ∃ m'' frame, timerRequest.foldl (fun c e => Config.next (board D) handler e c) c =
              .running p m'' (served ++ [frame]) ∧
            frame.vector = 32 ∧ m''.vars.ticks = m'.vars.ticks + 1) ∧
        (c.Booting → ∃ k p m' frame, (List.replicate k Event.step ++ timerRequest).foldl
            (fun c e => Config.next (board D) handler e c) c = .running p m' [frame] ∧
          frame.vector = 32 ∧ m'.vars.ticks = m.vars.ticks + 1)) events
            (.running (kmain boot) m []) := by
  have hrun := Config.guarded_run (handler_serves timerOnly fun _ => true)
    (kmain_guarded D boot hfree hdisabled) haccepts
  refine ⟨kmain_booting boot hfree hdisabled, hrun.mono fun c hc => ⟨?_, fun hbooting => ?_⟩⟩
  · rintro p m' served rfl hon hheld
    obtain ⟨m'', frame, htimer, hvector, hticks, -⟩ :=
      timer_served D p served hheld hon (idle_of_guarded hc hon)
    exact ⟨m'', frame, htimer, hvector, hticks⟩
  · obtain ⟨k, p, m', frame, hsteps, hvector, hticks, -⟩ := timer_served_first D hc hbooting
    exact ⟨k, p, m', frame, hsteps, hvector, hticks⟩

/-- The board of a machine that has just been switched on. -/
def switchedOn : Board Unit := ⟨uninitialised, zeroFrame, ()⟩

/-- A run of `kmain` to where interrupts are enabled, and an interrupt of the timer there. -/
theorem kmain_ticks : ∃ (events : List (Event (BoardEvent Unit))) (p : Kernel Unit)
    (m : Machine Lock Vars (Board Unit)) (frame : TrapFrame),
    events.foldl (fun c e => Config.next (board (readyTimer zeroFrame)) handler e c)
        (.running (kmain passingBoot) (atReset switchedOn) []) = .running p m [frame] ∧
      frame.vector = 32 ∧ m.vars.ticks = 1 ∧ m.enabled = true ∧ (∀ l, m.held l = false) ∧
      AllSteps (Config.next (board (readyTimer zeroFrame)) handler)
        (Config.AcceptsFree (board (readyTimer zeroFrame))) events
        (.running (kmain passingBoot) (atReset switchedOn) []) := by
  have hfree : ∀ l, (atReset switchedOn).held l = false := fun _ => rfl
  obtain ⟨k, p, m, frame, hrest⟩ := timer_served_first (readyTimer zeroFrame)
    (kmain_guarded (readyTimer zeroFrame) passingBoot hfree rfl)
    (kmain_booting passingBoot hfree rfl)
  exact ⟨_, p, m, frame, hrest⟩

/-- The kernel is ticking behind this interrupt. -/
theorem interrupts_served_timer : ∃ (events : List (Event (BoardEvent Unit))) (p : Kernel Unit)
    (m : Machine Lock Vars (Board Unit)) (frame : TrapFrame),
    events.foldl (fun c e => Config.next (board (readyTimer zeroFrame)) handler e c)
        (.running (kmain passingBoot) (atReset switchedOn) []) = .running p m [frame] ∧
      frame.vector = 32 ∧ m.vars.ticks = 1 ∧ Ticking (.running p m [frame]) := by
  obtain ⟨events, p, m, frame, hlast, hvector, hticks, hon, -, haccepts⟩ := kmain_ticks
  obtain ⟨-, hstates⟩ := interrupts_served (readyTimer zeroFrame) passingBoot (atReset switchedOn)
    (fun _ => rfl) rfl events haccepts
  have hstage := hstates.last.2
  rw [hlast] at hstage
  refine ⟨events, p, m, frame, hlast, hvector, hticks, ?_⟩
  rcases hstage with ⟨hbooting, -⟩ | hticking | hstopped
  · exact absurd (hbooting.1.symm.trans hon) Bool.false_ne_true
  · exact hticking
  · exact absurd (hstopped.1.symm.trans hon) Bool.false_ne_true

/-- The timer gets through again. -/
theorem timer_gets_through_again : ∃ (events : List (Event (BoardEvent Unit))) (p : Kernel Unit)
    (m : Machine Lock Vars (Board Unit)) (first second : TrapFrame),
    events.foldl (fun c e => Config.next (board (readyTimer zeroFrame)) handler e c)
        (.running (kmain passingBoot) (atReset switchedOn) []) = .running p m [first, second] ∧
      first.vector = 32 ∧ second.vector = 32 ∧ m.vars.ticks = 2 := by
  obtain ⟨events, p, m, first, hlast, hvector, hticks, hon, hfree, haccepts⟩ := kmain_ticks
  obtain ⟨-, hstates⟩ := timer_gets_through (readyTimer zeroFrame) passingBoot (atReset switchedOn)
    (fun _ => rfl) rfl events haccepts
  have hagain := hstates.last.1
  rw [hlast] at hagain
  obtain ⟨m', second, htimer, hvector', hticks'⟩ := hagain p m [first] rfl hon hfree
  refine ⟨events ++ timerRequest, p, m', first, second, ?_, hvector, hvector', ?_⟩
  · rw [List.foldl_append, hlast]
    exact htimer
  · rw [hticks', hticks]
    rfl

end

end Mcsos.Core
