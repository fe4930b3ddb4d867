import Mathlib.Data.Nat.Bitwise
import Mathlib.Tactic.Ring
import Mcsos.Lib.IoStages

/-!
# The console

Model of `kernel/core/serial.c`, `kernel/core/log.c` and of the report in `kernel/core/panic.c`.
Characters go to the serial port one by one, after a bounded wait for the transmitter; two locks are
taken around a string, `log_lock` and inside it `serial_lock`.

Whatever the serial port does, writing to the console ends, and what reaches the port is a part of
the text in its order; if the transmitter is always ready, it is the text.
-/

namespace Mcsos.Core

open Io

/-- `log_lock` and `serial_lock` -/
inductive Lock where
  | log
  | serial
  deriving DecidableEq, Repr

/-- `trap_count` and `g_ticks`, and the registers of the processor that the kernel reads. -/
structure Vars where
  trapCount : UInt64
  ticks : UInt64
  cr2 : UInt64
  rflags : UInt64

/-- Kernel code that uses the console. -/
abbrev Kernel (α : Type) : Type := Io Lock Vars α

/-- The bytes of a string literal. -/
def chars (s : String) : List UInt8 := s.toList.map fun c => UInt8.ofNat c.toNat

/-! ### serial.c -/

/-- `COM1_PORT` -/
def com1Port : UInt16 := 0x3F8

/-- `serial_init` -/
def serialInit : Kernel Unit :=
  .outb (com1Port + 1) 0x00 <| .outb (com1Port + 3) 0x80 <| .outb (com1Port + 0) 0x03 <|
  .outb (com1Port + 1) 0x00 <| .outb (com1Port + 3) 0x03 <| .outb (com1Port + 2) 0xC7 <|
  .outb (com1Port + 4) 0x0B <| .ret ()

/-- The loop of `serial_putc` with what is left of `timeout`, and the output behind it. -/
def serialPoll (c : UInt8) (timeout : ℕ) : Kernel Unit :=
  .inb (com1Port + 5) fun status =>
    if status &&& 0x20 ≠ 0 then .outb com1Port c (.ret ())
    else
      match timeout with
      | 0 => .ret ()
      | timeout + 1 => serialPoll c timeout

/-- `serial_putc` -/
def serialPutc (c : UInt8) : Kernel Unit := serialPoll c 1000000

/-- The loop of `serial_write`. -/
def serialChars : List UInt8 → Kernel Unit
  | [] => .ret ()
  | c :: s => do
    (if c = 10 then serialPutc 13 else .ret ())
    serialPutc c
    serialChars s

/-- `serial_write` -/
def serialWrite : Option (List UInt8) → Kernel Unit
  | none => .ret ()
  | some s => .lock .serial do
    serialChars s
    .unlock .serial (.ret ())

/-! ### log.c -/

/-- `log_init` -/
def logInit : Kernel Unit := serialInit

/-- `log_write` -/
def logWrite : Option (List UInt8) → Kernel Unit
  | none => .ret ()
  | some s => .lock .log do
    serialWrite (some s)
    .unlock .log (.ret ())

/-- `log_writeln` -/
def logWriteln : Option (List UInt8) → Kernel Unit
  | none => .ret ()
  | some s => .lock .log do
    serialWrite (some s)
    serialWrite (some (chars "\r\n"))
    .unlock .log (.ret ())

/-- `log_putc` -/
def logPutc (c : UInt8) : Kernel Unit := serialPutc c

/-- `digits` -/
def digits : List UInt8 := chars "0123456789abcdef"

/-- The digit of `value` at `shift`. -/
def hexDigit (value : UInt64) (shift : ℕ) : UInt8 :=
  digits.getD ((value >>> UInt64.ofNat shift) &&& 0xF).toNat 0

/-- The loop of `log_hex64`, with `left` digits to go. -/
def hexLoop (value : UInt64) : (left : ℕ) → Kernel Unit
  | 0 => .ret ()
  | left + 1 => do
    logPutc (hexDigit value (4 * left))
    hexLoop value left

/-- `log_hex64` -/
def logHex64 (value : UInt64) : Kernel Unit := do
  logWrite (some (chars "0x"))
  hexLoop value 16

/-- `log_key_value_hex64` -/
def logKeyValueHex64 (key : Option (List UInt8)) (value : UInt64) : Kernel Unit := do
  logWrite key
  logWrite (some (chars "="))
  logHex64 value
  logPutc 10

/-! ### panic.c -/

/-- The first loop of `log_dec_u32`, with `room` bytes left in the buffer; the digit stored last
stands first. -/
def decFill (value : UInt32) : (room : ℕ) → List UInt8 → List UInt8
  | 0, buf => buf
  | room + 1, buf =>
    if value ≠ 0 then decFill (value / 10) room ((48 + (value % 10).toUInt8) :: buf) else buf

/-- The second loop of `log_dec_u32`. -/
def putAll : List UInt8 → Kernel Unit
  | [] => .ret ()
  | c :: buf => do
    logPutc c
    putAll buf

/-- `log_dec_u32` -/
def logDecU32 (value : UInt32) : Kernel Unit :=
  if value = 0 then logPutc 48 else putAll (decFill value 11 [])

/-- The report of `kernel_panic_at`, up to the end of the function. -/
def panicReport (file : Option (List UInt8)) (lineNumber : UInt32) (reason : Option (List UInt8))
    (code rflags : UInt64) : Kernel Unit := do
  logWriteln (some (chars ""))
  logWriteln (some (chars "================ MCSOS KERNEL PANIC ================"))
  logWrite (some (chars "system="))
  logWrite (some (chars "MCSOS"))
  logWrite (some (chars " version="))
  logWrite (some (chars "260502"))
  logWrite (some (chars " milestone="))
  logWriteln (some (chars "M4"))
  logWrite (some (chars "reason="))
  logWriteln (some (reason.getD (chars "<null>")))
  logWrite (some (chars "location="))
  logWrite (some (file.getD (chars "<unknown>")))
  logWrite (some (chars ":"))
  logDecU32 lineNumber
  logPutc 10
  logKeyValueHex64 (some (chars "panic_code")) code
  logKeyValueHex64 (some (chars "rflags_before_cli")) rflags
  logWriteln (some (chars "state=halted"))
  logWriteln (some (chars "===================================================="))
  .setIf false .halt

/-- `kernel_panic_at` -/
def kernelPanicAt (file : Option (List UInt8)) (lineNumber : UInt32) (reason : Option (List UInt8))
    (code : UInt64) :
    Kernel Unit :=
  .get fun vars => .setIf false (panicReport file lineNumber reason code vars.rflags)

/-! ### The transmitter -/

section

variable {δ ε ι : Type} {D : Device δ ε ι} {dev dev' dev'' : δ} {limit : ℕ} {c : UInt8}
  {text text' out out' : List UInt8}

/-- The next look at the status finds the transmitter ready. -/
def ReadyAt (D : Device δ ε ι) (dev : δ) : Prop := (D.inb (com1Port + 5) dev).1 &&& 0x20 ≠ 0

/-- The port after `k` looks at the status. -/
def looked (D : Device δ ε ι) (k : ℕ) (dev : δ) : δ :=
  (fun dev => (D.inb (com1Port + 5) dev).2)^[k] dev

/-- What becomes of a text at the port, of which `out` gets through.  A character goes out at the
first look that finds the transmitter ready; it is lost just if that is none of `limit + 1`
looks. -/
inductive Sends (D : Device δ ε ι) (limit : ℕ) : List UInt8 → δ → List UInt8 → δ → Prop where
  | nil (dev : δ) : Sends D limit [] dev [] dev
  | sent {dev dev' : δ} {c : UInt8} {text out : List UInt8} {k : ℕ} : k ≤ limit →
      (∀ j < k, ¬ ReadyAt D (looked D j dev)) → ReadyAt D (looked D k dev) →
      Sends D limit text (D.outb com1Port c (looked D (k + 1) dev)) out dev' →
      Sends D limit (c :: text) dev (c :: out) dev'
  | lost {dev dev' : δ} {c : UInt8} {text out : List UInt8} :
      (∀ j ≤ limit, ¬ ReadyAt D (looked D j dev)) →
      Sends D limit text (looked D (limit + 1) dev) out dev' →
      Sends D limit (c :: text) dev out dev'

theorem Sends.append (h : Sends D limit text dev out dev')
    (h' : Sends D limit text' dev' out' dev'') :
    Sends D limit (text ++ text') dev (out ++ out') dev'' := by
  induction h with
  | nil dev => exact h'
  | sent hk hbefore hready _ ih => exact .sent hk hbefore hready (ih h')
  | lost hnever _ ih => exact .lost hnever (ih h')

theorem Sends.sublist (h : Sends D limit text dev out dev') : out.Sublist text := by
  induction h with
  | nil dev => exact List.Sublist.refl []
  | sent _ _ _ _ ih => exact ih.cons_cons _
  | lost _ _ ih => exact ih.cons _

/-- The transmitter is ready whenever its status is read. -/
def Ready (D : Device δ ε ι) : Prop := ∀ dev, ReadyAt D dev

theorem Sends.eq_of_ready (h : Sends D limit text dev out dev') (hready : Ready D) :
    out = text := by
  induction h with
  | nil dev => rfl
  | sent _ _ _ _ ih => rw [ih]
  | lost hnever _ _ => exact absurd (hready _) (hnever 0 (Nat.zero_le _))

/-- A look that finds the transmitter not ready leaves the others to do. -/
theorem Sends.later (hnot : ¬ ReadyAt D dev) (h : Sends D limit [c] (looked D 1 dev) out dev') :
    Sends D (limit + 1) [c] dev out dev' := by
  cases h with
  | @sent _ _ _ _ out k hk hbefore hready hrest =>
      cases hrest
      refine .sent (Nat.succ_le_succ hk) (fun j hj => ?_) hready (.nil _)
      cases j with
      | zero => exact hnot
      | succ j => exact hbefore j (Nat.lt_of_succ_lt_succ hj)
  | lost hnever hrest =>
      cases hrest
      refine .lost (fun j hj => ?_) (.nil _)
      cases j with
      | zero => exact hnot
      | succ j => exact hnever j (Nat.le_of_succ_le_succ hj)

end

/-! ### What is printed -/

/-- Started with locks as in `ok`, the program prints `text` and nothing else: it returns with the
locks as they were, and has sent the characters of the text that the transmitter was ready for. -/
structure Prints (ok : (Lock → Bool) → Prop) (p : Kernel Unit) (text : List UInt8) : Prop where
  brackets : ∀ held, ok held → p.Brackets held held
  within : p.Within (· = com1Port)
  run : ∀ {δ ε ι : Type} (D : Device δ ε ι) (m : Machine Lock Vars δ), ok m.held → ∃ dev sent,
    p.run D m =
      (.returns (), { m with dev := dev, sent := m.sent ++ sent.map fun c => (com1Port, c) }) ∧
      Sends D 1000000 text m.dev sent dev

variable {ok ok' : (Lock → Bool) → Prop} {p q : Kernel Unit} {text text' : List UInt8}

theorem Prints.mono (h : Prints ok p text) (hok : ∀ held, ok' held → ok held) : Prints ok' p text :=
  ⟨fun held hheld => h.brackets held (hok held hheld), h.within, fun D m hm => h.run D m (hok _ hm)⟩

theorem prints_ret : Prints ok (.ret ()) [] :=
  ⟨fun _ _ => rfl, trivial, fun _ m _ => ⟨m.dev, [], by simp [Io.run], .nil m.dev⟩⟩

theorem Prints.bind (hp : Prints ok p text) (hq : Prints ok q text') :
    Prints ok (p >>= fun _ => q) (text ++ text') := by
  refine ⟨fun held hheld => (hp.brackets held hheld).bind fun _ => hq.brackets held hheld,
    hp.within.bind fun _ => hq.within, fun D m hm => ?_⟩
  obtain ⟨dev, sent, hrun, hsends⟩ := hp.run D m hm
  obtain ⟨dev', sent', hrun', hsends'⟩ := hq.run D
    { m with dev := dev, sent := m.sent ++ sent.map fun c => (com1Port, c) } hm
  refine ⟨dev', sent ++ sent', ?_, hsends.append hsends'⟩
  rw [Io.run_bind, hrun]
  simp only [End.andThen, hrun', List.map_append, List.append_assoc]

/-- Code between taking a lock and giving it back. -/
theorem Prints.locked {l : Lock} (hp : Prints ok' p text)
    (hok : ∀ held, ok held → held l = false ∧ ok' (Function.update held l true)) :
    Prints ok (.lock l (p >>= fun _ => .unlock l (.ret ()))) text := by
  have hback : ∀ held : Lock → Bool, held l = false →
      Function.update (Function.update held l true) l false = held := by
    intro held hfree
    rw [Function.update_idem, ← hfree, Function.update_eq_self]
  refine ⟨fun held hheld =>
    ⟨(hok held hheld).1, (hp.brackets _ (hok held hheld).2).bind fun _ => ?_⟩,
    hp.within.bind fun _ => trivial, fun D m hm => ?_⟩
  · exact ⟨Function.update_self .., hback held (hok held hheld).1⟩
  · obtain ⟨hfree, hm'⟩ := hok m.held hm
    obtain ⟨dev, sent, hrun, hsends⟩ :=
      hp.run D { m with held := Function.update m.held l true } hm'
    refine ⟨dev, sent, ?_, hsends⟩
    rw [Io.run, if_neg (by simp [hfree]), Io.run_bind, hrun]
    simp only [End.andThen, Io.run, hback m.held hfree]

/-! ### Characters -/

/-- The wait for the transmitter touches no lock. -/
theorem serialPoll_brackets (c : UInt8) (timeout : ℕ) (held : Lock → Bool) :
    (serialPoll c timeout).Brackets held held := by
  induction timeout with
  | zero =>
      intro status
      dsimp only
      split <;> rfl
  | succ timeout ih =>
      intro status
      dsimp only
      split
      · rfl
      · exact ih

theorem serialPoll_within (c : UInt8) (timeout : ℕ) :
    (serialPoll c timeout).Within (· = com1Port) := by
  induction timeout with
  | zero =>
      intro status
      dsimp only
      split
      · exact ⟨rfl, trivial⟩
      · trivial
  | succ timeout ih =>
      intro status
      dsimp only
      split
      · exact ⟨rfl, trivial⟩
      · exact ih

/-- It sends the character at the first look that finds the transmitter ready. -/
theorem serialPoll_sends {δ ε ι : Type} (D : Device δ ε ι) (c : UInt8) (timeout : ℕ)
    (m : Machine Lock Vars δ) : ∃ dev sent,
      (serialPoll c timeout).run D m =
        (.returns (), { m with dev := dev, sent := m.sent ++ sent.map fun c => (com1Port, c) }) ∧
      Sends D timeout [c] m.dev sent dev := by
  induction timeout generalizing m with
  | zero =>
      by_cases hready : (D.inb (com1Port + 5) m.dev).1 &&& 0x20 ≠ 0
      · refine ⟨_, [c], ?_, .sent (Nat.le_refl 0) nofun hready (.nil _)⟩
        rw [serialPoll, Io.run, if_pos hready]
        rfl
      · refine ⟨looked D 1 m.dev, [], ?_, .lost (fun j hj => ?_) (.nil _)⟩
        · rw [serialPoll, Io.run, if_neg hready]
          simp [Io.run, looked]
        · rwa [Nat.le_zero.mp hj]
  | succ timeout ih =>
      by_cases hready : (D.inb (com1Port + 5) m.dev).1 &&& 0x20 ≠ 0
      · refine ⟨_, [c], ?_, .sent (Nat.zero_le _) nofun hready (.nil _)⟩
        rw [serialPoll, Io.run, if_pos hready]
        rfl
      · obtain ⟨dev, sent, hrun, hsends⟩ := ih { m with dev := looked D 1 m.dev }
        refine ⟨dev, sent, ?_, hsends.later hready⟩
        rw [serialPoll, Io.run, if_neg hready]
        exact hrun

theorem serialPutc_prints (c : UInt8) : Prints ok (serialPutc c) [c] :=
  ⟨fun held _ => serialPoll_brackets c _ held, serialPoll_within c _,
    fun D m _ => serialPoll_sends D c _ m⟩

/-- What `serial_write` makes of a string. -/
def expand (s : List UInt8) : List UInt8 := s.flatMap fun c => if c = 10 then [13, 10] else [c]

theorem serialChars_prints (s : List UInt8) : Prints ok (serialChars s) (expand s) := by
  induction s with
  | nil => exact prints_ret
  | cons c s ih =>
      by_cases hc : c = 10
      · subst hc
        exact (serialPutc_prints 13).bind ((serialPutc_prints 10).bind ih)
      · have hputs := prints_ret.bind ((@serialPutc_prints ok c).bind ih)
        rw [serialChars, if_neg hc]
        rwa [expand, List.flatMap_cons, if_neg hc]

/-! ### Strings -/

/-- No lock is taken. -/
def Free (held : Lock → Bool) : Prop := ∀ l, held l = false

theorem serialWrite_prints (s : List UInt8) :
    Prints (fun held => held .serial = false) (serialWrite (some s)) (expand s) :=
  (@serialChars_prints (fun _ => True) s).locked fun _ hheld => ⟨hheld, trivial⟩

theorem free_log {held : Lock → Bool} (h : Free held) :
    held .log = false ∧ Function.update held .log true .serial = false :=
  ⟨h .log, h .serial⟩

/-- The text of a string given to `log_write`, which may be a null pointer. -/
def textOf (s : Option (List UInt8)) : List UInt8 := expand (s.getD [])

/-- The text of a line: the end of the line has one carriage return more. -/
def line : Option (List UInt8) → List UInt8
  | none => []
  | some s => expand s ++ [13, 13, 10]

theorem logWrite_prints (s : Option (List UInt8)) : Prints Free (logWrite s) (textOf s) := by
  cases s with
  | none => exact prints_ret
  | some s => exact (serialWrite_prints s).locked fun _ => free_log

theorem logWriteln_prints (s : Option (List UInt8)) : Prints Free (logWriteln s) (line s) := by
  cases s with
  | none => exact prints_ret
  | some s =>
      have hlines := (serialWrite_prints s).bind (serialWrite_prints (chars "\r\n"))
      have hboth : Prints Free (.lock .log _) _ := hlines.locked fun _ => free_log
      rwa [Io.bind_assoc] at hboth

/-! ### Numbers -/

/-- The last `left` digits of `value`. -/
def hexDigits (value : UInt64) : (left : ℕ) → List UInt8
  | 0 => []
  | left + 1 => hexDigit value (4 * left) :: hexDigits value left

theorem hexLoop_prints (value : UInt64) (left : ℕ) :
    Prints ok (hexLoop value left) (hexDigits value left) := by
  induction left with
  | zero => exact prints_ret
  | succ left ih => exact (serialPutc_prints _).bind ih

/-- The text of `log_hex64`. -/
def hexText (value : UInt64) : List UInt8 := textOf (some (chars "0x")) ++ hexDigits value 16

theorem logHex64_prints (value : UInt64) : Prints Free (logHex64 value) (hexText value) :=
  (logWrite_prints _).bind (hexLoop_prints value 16)

/-- The text of `log_key_value_hex64`, which ends with a bare line feed. -/
def keyText (key : Option (List UInt8)) (value : UInt64) : List UInt8 :=
  textOf key ++ (textOf (some (chars "=")) ++ (hexText value ++ [10]))

theorem logKeyValueHex64_prints (key : Option (List UInt8)) (value : UInt64) :
    Prints Free (logKeyValueHex64 key value) (keyText key value) :=
  (logWrite_prints key).bind
    ((logWrite_prints _).bind ((logHex64_prints value).bind (serialPutc_prints 10)))

theorem putAll_prints (buf : List UInt8) : Prints ok (putAll buf) buf := by
  induction buf with
  | nil => exact prints_ret
  | cons c buf ih => exact (serialPutc_prints c).bind ih

/-- The text of `log_dec_u32`. -/
def decText (value : UInt32) : List UInt8 := if value = 0 then [48] else decFill value 11 []

theorem logDecU32_prints (value : UInt32) : Prints ok (logDecU32 value) (decText value) := by
  rw [logDecU32, decText]
  split
  · exact serialPutc_prints 48
  · exact putAll_prints _

/-- The value of a hexadecimal digit. -/
def hexValue (c : UInt8) : ℕ := if c < 58 then c.toNat - 48 else c.toNat - 87

/-- Reads a number in the given base. -/
def readNumber (base : ℕ) (digit : UInt8 → ℕ) (s : List UInt8) (n : ℕ) : ℕ :=
  s.foldl (fun n c => base * n + digit c) n

theorem hexValue_digits : ∀ n < 16, hexValue (digits.getD n 0) = n := by decide

theorem hexValue_hexDigit (value : UInt64) {shift : ℕ} (hshift : shift < 64) :
    hexValue (hexDigit value shift) = value.toNat / 2 ^ shift % 16 := by
  have hmod : (UInt64.ofNat shift).toNat % 64 = shift := by
    rw [UInt64.toNat_ofNat']
    omega
  have hnibble : ((value >>> UInt64.ofNat shift) &&& 0xF).toNat = value.toNat / 2 ^ shift % 16 := by
    have hmask := Nat.and_two_pow_sub_one_eq_mod (value.toNat >>> shift) 4
    rw [UInt64.toNat_and, UInt64.toNat_shiftRight, hmod, ← Nat.shiftRight_eq_div_pow]
    exact hmask
  rw [hexDigit, hnibble]
  exact hexValue_digits _ (Nat.mod_lt _ (by decide))

theorem readNumber_hexDigits (value : UInt64) {left : ℕ} (hleft : left ≤ 16) (n : ℕ) :
    readNumber 16 hexValue (hexDigits value left) n = 16 ^ left * n + value.toNat % 16 ^ left := by
  induction left generalizing n with
  | zero => simp [readNumber, hexDigits, Nat.mod_one]
  | succ left ih =>
      have hpow : (2 : ℕ) ^ (4 * left) = 16 ^ left := pow_mul 2 4 left
      have hsplit : value.toNat % 16 ^ (left + 1) =
          16 ^ left * (value.toNat / 16 ^ left % 16) + value.toNat % 16 ^ left := by
        rw [pow_succ, Nat.mod_mul, Nat.add_comm]
      calc readNumber 16 hexValue (hexDigits value (left + 1)) n
          = readNumber 16 hexValue (hexDigits value left)
            (16 * n + hexValue (hexDigit value (4 * left))) := rfl
        _ = 16 ^ left * (16 * n + value.toNat / 16 ^ left % 16) + value.toNat % 16 ^ left := by
            rw [ih (by omega), hexValue_hexDigit value (by omega), hpow]
        _ = 16 ^ (left + 1) * n + value.toNat % 16 ^ (left + 1) := by rw [hsplit, pow_succ]; ring

theorem readNumber_decFill {value : UInt32} {room : ℕ} (hroom : value.toNat < 10 ^ room)
    (buf : List UInt8) :
    readNumber 10 (fun c => c.toNat - 48) (decFill value room buf) 0 =
      readNumber 10 (fun c => c.toNat - 48) buf value.toNat := by
  induction room generalizing value buf with
  | zero =>
      have hzero : value.toNat = 0 := by omega
      rw [decFill, hzero]
  | succ room ih =>
      rw [decFill]
      split
      · have hdiv : (value / 10).toNat = value.toNat / 10 := UInt32.toNat_div ..
        have hmod : (value % 10).toNat = value.toNat % 10 := UInt32.toNat_mod ..
        have hdigit : (48 + (value % 10).toUInt8).toNat - 48 = value.toNat % 10 := by
          rw [UInt8.toNat_add, UInt32.toNat_toUInt8, hmod]
          have h48 : (48 : UInt8).toNat = 48 := rfl
          omega
        rw [ih (by rw [hdiv]; rw [pow_succ] at hroom; omega)]
        simp only [readNumber, List.foldl_cons, hdigit, hdiv]
        rw [Nat.div_add_mod]
      · rename_i hzero
        rw [not_not] at hzero
        rw [hzero]
        rfl

theorem length_decFill {value : UInt32} {room k : ℕ} (hvalue : value.toNat < 10 ^ k)
    (buf : List UInt8) :
    (decFill value room buf).length ≤ k + buf.length := by
  induction room generalizing value k buf with
  | zero => exact Nat.le_add_left _ _
  | succ room ih =>
      rw [decFill]
      split
      · rename_i hne
        have hdiv : (value / 10).toNat = value.toNat / 10 := UInt32.toNat_div ..
        have hpos : value.toNat ≠ 0 := fun h => hne (UInt32.toNat_inj.mp h)
        cases k with
        | zero => omega
        | succ k =>
            rw [pow_succ] at hvalue
            have hsmall : (value / 10).toNat < 10 ^ k := by omega
            have hrest := ih hsmall ((48 + (value % 10).toUInt8) :: buf)
            rw [List.length_cons] at hrest
            omega
      · exact Nat.le_add_left _ _

theorem length_hexDigits (value : UInt64) (left : ℕ) : (hexDigits value left).length = left := by
  induction left with
  | zero => rfl
  | succ left ih => rw [hexDigits, List.length_cons, ih]

theorem mem_digits_of_lt : ∀ n < 16, digits.getD n 0 ∈ digits := by decide

theorem hexDigits_digits (value : UInt64) (left : ℕ) : ∀ c ∈ hexDigits value left, c ∈ digits := by
  induction left with
  | zero => exact nofun
  | succ left ih =>
      intro c hc
      rcases List.mem_cons.mp hc with rfl | hc
      · refine mem_digits_of_lt _ ?_
        rw [UInt64.toNat_and]
        exact Nat.lt_succ_of_le Nat.and_le_right
      · exact ih c hc

theorem mem_digits_ten : ∀ n < 10, 48 + UInt8.ofNat n ∈ digits.take 10 := by decide

theorem decFill_digits {value : UInt32} {room : ℕ} {buf : List UInt8}
    (hbuf : ∀ c ∈ buf, c ∈ digits.take 10) : ∀ c ∈ decFill value room buf, c ∈ digits.take 10 := by
  induction room generalizing value buf with
  | zero => exact hbuf
  | succ room ih =>
      rw [decFill]
      split
      · have hdigit : (value % 10).toUInt8 = UInt8.ofNat (value.toNat % 10) := by
          refine UInt8.toNat_inj.mp ?_
          rw [UInt32.toNat_toUInt8, UInt8.toNat_ofNat', UInt32.toNat_mod]
          rfl
        refine ih fun c hc => ?_
        rcases List.mem_cons.mp hc with rfl | hc
        · rw [hdigit]
          exact mem_digits_ten _ (Nat.mod_lt _ (by decide))
        · exact hbuf c hc
      · exact hbuf

/-- **Numbers in the log can be read back.**  What `log_hex64` prints behind its `0x` are 16 digits
that denote the value; what `log_dec_u32` prints are decimal digits that denote the value, and they
fit its buffer. -/
theorem numbers_read_back (v : UInt64) (n : UInt32) :
    (∃ s, Prints Free (logHex64 v) (chars "0x" ++ s) ∧ s.length = 16 ∧ (∀ c ∈ s, c ∈ digits) ∧
        readNumber 16 hexValue s 0 = v.toNat) ∧
      ∃ s, Prints (fun _ => True) (logDecU32 n) s ∧ s.length ≤ 10 ∧ (∀ c ∈ s, c ∈ digits.take 10) ∧
        readNumber 10 (fun c => c.toNat - 48) s 0 = n.toNat := by
  refine ⟨⟨hexDigits v 16, logHex64_prints v, length_hexDigits v 16, hexDigits_digits v 16, ?_⟩,
    decText n, logDecU32_prints n, ?_⟩
  · rw [readNumber_hexDigits v (Nat.le_refl 16), Nat.mul_zero, Nat.zero_add]
    exact Nat.mod_eq_of_lt v.toNat_lt
  · rw [decText]
    split
    · rename_i hzero
      rw [hzero]
      refine ⟨by decide, fun c hc => ?_, rfl⟩
      rw [List.mem_singleton.mp hc]
      exact mem_digits_ten 0 (by decide)
    · have hlt := n.toNat_lt
      have hroom : n.toNat < 10 ^ 10 := by omega
      exact ⟨length_decFill hroom [], decFill_digits nofun, readNumber_decFill (by omega) []⟩

/-! ### The report of a panic -/

/-- Code that prints and then halts the processor. -/
structure PrintsLast (p : Kernel Unit) (text : List UInt8) : Prop where
  brackets : ∀ held, Free held → p.Brackets held held
  keeps : p.Keeps
  staysOff : p.StaysOff
  guards : ∀ {δ ε ι γ : Type} {D : Device δ ε ι} {V : D.View γ} {safe : γ → Prop}
    {post : Bool → γ → Prop} {c : γ},
    (∀ v, V.out com1Port v c = c) → p.Guards V safe post false c
  run : ∀ {δ ε ι : Type} (D : Device δ ε ι) (m : Machine Lock Vars δ), Free m.held → ∃ dev sent,
    p.run D m =
      (.halts, { m with
        dev := dev, enabled := false, sent := m.sent ++ sent.map fun c => (com1Port, c) }) ∧
      Sends D 1000000 text m.dev sent dev

theorem printsLast_halt : PrintsLast (.setIf false .halt) [] :=
  ⟨fun _ _ => trivial, trivial, trivial, fun _ => ⟨nofun, nofun⟩,
    fun _ m _ => ⟨m.dev, [], by simp [Io.run], .nil m.dev⟩⟩

theorem Prints.bindLast (hp : Prints Free p text) (hq : PrintsLast q text') :
    PrintsLast (p >>= fun _ => q) (text ++ text') := by
  refine ⟨fun held hheld => (hp.brackets held hheld).bind fun _ => hq.brackets held hheld,
    hp.within.keeps.bind fun _ => hq.keeps, hp.within.staysOff fun _ => hq.staysOff, fun hout => ?_,
    fun D m hm => ?_⟩
  · exact (hp.within.guards (fun port v hport => hport ▸ hout v) nofun).bind fun _ on c h => by
      rw [h.1, h.2]
      exact hq.guards hout
  obtain ⟨dev, sent, hrun, hsends⟩ := hp.run D m hm
  obtain ⟨dev', sent', hrun', hsends'⟩ := hq.run D
    { m with dev := dev, sent := m.sent ++ sent.map fun c => (com1Port, c) } hm
  refine ⟨dev', sent ++ sent', ?_, hsends.append hsends'⟩
  rw [Io.run_bind, hrun]
  simp only [End.andThen, hrun', List.map_append, List.append_assoc]

/-- What `kernel_panic_at` prints. -/
def panicText (file : Option (List UInt8)) (lineNumber : UInt32) (reason : Option (List UInt8))
    (code rflags : UInt64) : List UInt8 :=
  line (some (chars "")) ++
  (line (some (chars "================ MCSOS KERNEL PANIC ================")) ++
  (textOf (some (chars "system=")) ++ (textOf (some (chars "MCSOS")) ++
  (textOf (some (chars " version=")) ++ (textOf (some (chars "260502")) ++
  (textOf (some (chars " milestone=")) ++ (line (some (chars "M4")) ++
  (textOf (some (chars "reason=")) ++ (line (some (reason.getD (chars "<null>"))) ++
  (textOf (some (chars "location=")) ++ (textOf (some (file.getD (chars "<unknown>"))) ++
  (textOf (some (chars ":")) ++ (decText lineNumber ++ ([10] ++
  (keyText (some (chars "panic_code")) code ++ (keyText (some (chars "rflags_before_cli")) rflags ++
  (line (some (chars "state=halted")) ++
  (line (some (chars "====================================================")) ++
  []))))))))))))))))))

theorem panicReport_prints (file : Option (List UInt8)) (lineNumber : UInt32)
    (reason : Option (List UInt8)) (code rflags : UInt64) :
    PrintsLast (panicReport file lineNumber reason code rflags)
      (panicText file lineNumber reason code rflags) := by
  refine (logWriteln_prints _).bindLast ((logWriteln_prints _).bindLast ?_)
  refine (logWrite_prints _).bindLast ((logWrite_prints _).bindLast ?_)
  refine (logWrite_prints _).bindLast ((logWrite_prints _).bindLast ?_)
  refine (logWrite_prints _).bindLast ((logWriteln_prints _).bindLast ?_)
  refine (logWrite_prints _).bindLast ((logWriteln_prints _).bindLast ?_)
  refine (logWrite_prints _).bindLast ((logWrite_prints _).bindLast ?_)
  refine (logWrite_prints _).bindLast
    ((logDecU32_prints lineNumber).bindLast ((serialPutc_prints 10).bindLast ?_))
  refine (logKeyValueHex64_prints _ code).bindLast ((logKeyValueHex64_prints _ rflags).bindLast ?_)
  exact (logWriteln_prints _).bindLast ((logWriteln_prints _).bindLast printsLast_halt)

/-! ### Locks that are taken -/

/-- The program cannot do with a lock being taken: it comes to spin, before it has sent anything. -/
def Excludes (p : Kernel Unit) : Prop :=
  ∀ {δ ε ι : Type} (D : Device δ ε ι) (m : Machine Lock Vars δ), (∃ l, m.held l = true) →
    ∃ l m', p.run D m = (.spins l, m') ∧ m'.sent = m.sent

theorem Excludes.bind (hp : Excludes p) (f : Unit → Kernel Unit) : Excludes (p >>= f) := by
  intro δ ε ι D m hm
  obtain ⟨l, m', hrun, hsent⟩ := hp D m hm
  exact ⟨l, m', by rw [Io.run_bind, hrun]; rfl, hsent⟩

/-- A string is printed with both locks. -/
theorem excludes_locked (s : List UInt8) (f : Unit → Kernel Unit) :
    Excludes (.lock .log (serialWrite (some s) >>= f)) := by
  rintro δ ε ι D m ⟨l, hl⟩
  by_cases hlog : m.held .log = true
  · exact ⟨.log, m, by rw [Io.run, if_pos hlog], rfl⟩
  · have hserial : m.held .serial = true := by
      cases l with
      | log => exact absurd hl hlog
      | serial => exact hl
    refine ⟨.serial, { m with held := Function.update m.held .log true }, ?_, rfl⟩
    rw [Io.run, if_neg hlog, Io.run_bind, serialWrite, Io.run]
    have hheld : Function.update m.held .log true .serial = true := hserial
    simp only [hheld, if_true, End.andThen]

theorem logWrite_excludes (s : List UInt8) : Excludes (logWrite (some s)) := excludes_locked s _

theorem logWriteln_excludes (s : List UInt8) : Excludes (logWriteln (some s)) := excludes_locked s _

theorem kernelPanicAt_excludes (file : Option (List UInt8)) (lineNumber : UInt32)
    (reason : Option (List UInt8)) (code : UInt64) :
    Excludes (kernelPanicAt file lineNumber reason code) := fun D m hm =>
  Excludes.bind (logWriteln_excludes (chars "")) _ D { m with enabled := false } hm

/-- **When a panic is reported.**  If no lock is taken, `kernel_panic_at` halts the processor with
interrupts disabled.  What it sends are the characters of the report in their order, except for
those for which the transmitter stayed not ready at 1000001 looks in a row; a transmitter that is
always ready gets all of it.  A panic of code that has a lock of the console never halts: it spins,
and not a byte of the report is sent. -/
theorem panic_exact {δ ε ι : Type} (D : Device δ ε ι) (file : Option (List UInt8))
    (lineNumber : UInt32) (reason : Option (List UInt8)) (code : UInt64) (m : Machine Lock Vars δ) :
    ((∃ m', (kernelPanicAt file lineNumber reason code).run D m = (.halts, m') ∧
      m'.enabled = false ∧
        ∃ sent, m'.sent = m.sent ++ sent.map (fun c => (com1Port, c)) ∧
          Sends D 1000000 (panicText file lineNumber reason code m.vars.rflags) m.dev sent m'.dev ∧
          sent.Sublist (panicText file lineNumber reason code m.vars.rflags) ∧
          (Ready D → sent = panicText file lineNumber reason code m.vars.rflags)) ↔
        ∀ l, m.held l = false) ∧
      ((∃ l m', (kernelPanicAt file lineNumber reason code).run D m = (.spins l, m') ∧
        m'.sent = m.sent) ↔ ∃ l, m.held l = true) := by
  by_cases htaken : ∃ l, m.held l = true
  · obtain ⟨l, m', hrun, hsent⟩ := kernelPanicAt_excludes file lineNumber reason code D m htaken
    rw [hrun]
    refine ⟨⟨?_, fun h => ?_⟩, fun _ => htaken, fun _ => ⟨l, m', rfl, hsent⟩⟩
    · rintro ⟨m'', h, -⟩
      cases h
    · obtain ⟨l, hl⟩ := htaken
      rw [h l] at hl
      cases hl
  · have hfree : Free m.held := fun l => (Bool.not_eq_true _).mp fun hl => htaken ⟨l, hl⟩
    obtain ⟨dev, sent, hrun, hsends⟩ :=
      (panicReport_prints file lineNumber reason code m.vars.rflags).run D
      { m with enabled := false } hfree
    have hpanic : (kernelPanicAt file lineNumber reason code).run D m = _ := hrun
    rw [hpanic]
    refine ⟨⟨fun _ => hfree, fun _ =>
      ⟨_, rfl, rfl, sent, rfl, hsends, hsends.sublist, hsends.eq_of_ready⟩⟩,
      ?_, fun h => absurd h htaken⟩
    rintro ⟨l, m'', h, -⟩
    cases h

end Mcsos.Core
