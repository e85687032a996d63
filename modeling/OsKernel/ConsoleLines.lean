import OsKernel.ConsoleLock
import OsKernel.LogTime

/-! # The lines of logs and handlers

What a log call and an interrupt handler print, as text.  A log line is the time, a tag,
the text of the format and a line feed (`LogLevel.calls_prints`); a key press is a log line
and the character of the key, and an interrupt without a handler of its own is a warning
(`Irq.acts_prints`).
-/
namespace OsKernel

/-- The tokens of a text without escapes and directives. -/
def literalTokens (s : String) : List FormatToken :=
  (bytes s).filterMap fun c =>
    if h : c ≠ 0 ∧ c ≠ 0x1B ∧ c ≠ 0x25 then some (.literal c h) else none

/-- The tag of a log line. -/
def LogLevel.tag : LogLevel → List UInt8
  | .info => bytes "[INFO] "
  | .warn => bytes "[WARN] "
  | .error => bytes "[ERROR] "

/-- A log line: the time, the tag, the text of its format, and a line feed. -/
def LogLevel.line (level : LogLevel) (ticks : UInt64) (text : List UInt8) : List UInt8 :=
  stampText ticks ++ level.tag ++ text ++ [0x0A]

/-- What a handler prints, when the clock shows `ticks`. -/
def Irq.text (ticks : UInt64) : Irq → List UInt8
  | .timer => []
  | .keyboard scancode =>
    let c := scancodeToAscii[scancode.toNat]?.getD 0
    if scancode &&& 0x80 ≠ 0 then []
    else if c ≠ 0 then
      LogLevel.info.line ticks (bytes "Key: '" ++ [c] ++ bytes "' (scancode=0x" ++
        hexText scancode.toNat ++ bytes ")") ++ [c]
    else
      LogLevel.info.line ticks (bytes "Key: (special, scancode=0x" ++ hexText scancode.toNat ++
        bytes ")")
  | .unhandled regs =>
    LogLevel.warn.line ticks (bytes "Unhandled Interrupt (Vector: 0x" ++
      hexText regs.intNo.toNat ++ bytes ", Error Code: 0x" ++ hexText regs.errCode.toNat ++
      bytes ", EIP: 0x" ++ hexText regs.eip.toNat ++ bytes ")")

variable {ticks : UInt64} {text : List UInt8} {calls : List VgaCall}

theorem FormatToken.calls_characters (t : FormatToken) :
    t.calls.flatMap VgaCall.characters = t.characters ∧ VgaCall.clear ∉ t.calls := by
  cases t with
  | literal c h => exact ⟨rfl, by simp [FormatToken.calls]⟩
  | other c h => exact ⟨rfl, by simp [FormatToken.calls]⟩
  | directive dir =>
    obtain ⟨hplain, hchars⟩ := dir.calls_plain
    refine ⟨hchars, fun hclear => ?_⟩
    have hbody : VgaCall.clear.body ≠
        textSteps VgaCall.clear.characters ++ [.updateCursor] := by decide
    exact hbody (hplain _ hclear)
  | escape digits h =>
    rw [FormatToken.calls]
    cases selectedColour (digitValue digits) with
    | none => exact ⟨rfl, List.not_mem_nil⟩
    | some c => exact ⟨rfl, by simp⟩

/-- Calls that print and do not clear. -/
def Prints (calls : List VgaCall) (text : List UInt8) : Prop :=
  calls.flatMap VgaCall.characters = text ∧ VgaCall.clear ∉ calls

theorem Prints.append {calls' : List VgaCall} {text' : List UInt8} (h : Prints calls text)
    (h' : Prints calls' text') : Prints (calls ++ calls') (text ++ text') := by
  refine ⟨?_, fun hmem => (List.mem_append.mp hmem).elim h.2 h'.2⟩
  rw [List.flatMap_append, h.1, h'.1]

theorem prints_tokens (tokens : List FormatToken) :
    Prints (tokens.flatMap FormatToken.calls) (tokens.flatMap FormatToken.characters) := by
  induction tokens with
  | nil => exact ⟨rfl, List.not_mem_nil⟩
  | cons t tokens ih => exact Prints.append (t.calls_characters) ih

/-- **A log function** prints its line. -/
theorem LogLevel.calls_prints (level : LogLevel) (ticks : UInt64) (tokens : List FormatToken) :
    ∃ calls, level.calls ticks (formatText tokens) (formatArgs tokens) = some calls ∧
      Prints calls (level.line ticks (tokens.flatMap FormatToken.characters)) := by
  have hstamp : Prints ((stampText ticks).map .putChar) (stampText ticks) :=
    ⟨characters_putChars _, by simp⟩
  have hreset : printf (cString "\x1b[0m\n") [] = some [.setColor 0x0F, .putChar 0x0A] := by decide
  have hformat := vprintf_tokens tokens []
  rw [List.append_nil] at hformat
  have hlog : ∀ (tag : String) (tagCalls : List VgaCall), printf (cString tag) [] = some tagCalls →
      Prints tagCalls level.tag → ∃ calls, logLine tag ticks (formatText tokens)
        (formatArgs tokens) = some calls ∧
          Prints calls (level.line ticks (tokens.flatMap FormatToken.characters)) := by
    intro tag tagCalls htag hprints
    refine ⟨_, by rw [logLine, printTimestamp_eq, htag, hformat, hreset]; rfl, ?_⟩
    exact ((hstamp.append hprints).append (prints_tokens tokens)).append ⟨rfl, by decide⟩
  cases level with
  | info => exact hlog _ _ rfl ⟨rfl, by decide⟩
  | warn => exact hlog _ _ rfl ⟨rfl, by decide⟩
  | error => exact hlog _ _ rfl ⟨rfl, by decide⟩

theorem literalTokens_characters {s : String}
    (h : ∀ c ∈ bytes s, c ≠ 0 ∧ c ≠ 0x1B ∧ c ≠ 0x25) :
    (literalTokens s).flatMap FormatToken.characters = bytes s := by
  rw [literalTokens]
  generalize bytes s = text at h ⊢
  induction text with
  | nil => rfl
  | cons c text ih =>
    obtain ⟨hc, htext⟩ := List.forall_mem_cons.mp h
    rw [List.filterMap_cons_some (dif_pos hc), List.flatMap_cons, ih htext]
    rfl

/-- **The keyboard handler** prints a line for the key, and the character of the key. -/
theorem keyboardHandler_prints (scancode : UInt8) (ticks : UInt64) :
    ∃ calls, keyboardHandler scancode ticks =
        some (calls.map .vga ++ [.outb pic1Cmd picEoi]) ∧
      Prints calls ((Irq.keyboard scancode).text ticks) := by
  unfold keyboardHandler Irq.text
  dsimp only
  generalize scancodeToAscii[scancode.toNat]?.getD 0 = c
  by_cases hrelease : scancode &&& 0x80 ≠ 0
  · rw [if_pos hrelease, if_pos hrelease]
    exact ⟨[], rfl, rfl, List.not_mem_nil⟩
  rw [if_neg hrelease, if_neg hrelease]
  by_cases hc : c ≠ 0
  · rw [if_pos hc, if_pos hc]
    obtain ⟨calls, hcalls, hprints⟩ := LogLevel.calls_prints .info ticks
      (literalTokens "Key: '" ++ .directive (.c c.toUInt32) ::
        (literalTokens "' (scancode=0x" ++ .directive (.x scancode.toUInt32) :: literalTokens ")"))
    have hlog : logInfo ticks (cString "Key: '%c' (scancode=0x%x)")
        [.int c.toUInt32, .int scancode.toUInt32] = some calls := hcalls
    have hecho : Prints [.putChar c] [c] := ⟨rfl, by simp⟩
    have hall := hprints.append hecho
    refine ⟨calls ++ [.putChar c], ?_, ?_⟩
    · rw [hlog, List.map_append, List.append_assoc]
      rfl
    · simpa (disch := decide +kernel) [literalTokens_characters, FormatToken.characters,
        Directive.characters] using hall
  · rw [if_neg hc, if_neg hc]
    obtain ⟨calls, hcalls, hprints⟩ := LogLevel.calls_prints .info ticks
      (literalTokens "Key: (special, scancode=0x" ++ .directive (.x scancode.toUInt32) ::
        literalTokens ")")
    have hlog : logInfo ticks (cString "Key: (special, scancode=0x%x)")
        [.int scancode.toUInt32] = some calls := hcalls
    refine ⟨calls, ?_, ?_⟩
    · rw [hlog]
      rfl
    · simpa (disch := decide +kernel) [literalTokens_characters, FormatToken.characters,
        Directive.characters] using hprints

theorem isrUnhandledInterrupt_prints (regs : Registers) (ticks : UInt64) :
    ∃ calls, isrUnhandledInterrupt regs ticks = some (calls.map .vga ++
        if regs.intNo ≥ 32 ∧ regs.intNo ≤ 47 then picSendEoi (regs.intNo - 32).toUInt8 else []) ∧
      Prints calls ((Irq.unhandled regs).text ticks) := by
  obtain ⟨calls, hcalls, hprints⟩ := LogLevel.calls_prints .warn ticks
    (literalTokens "Unhandled Interrupt (Vector: 0x" ++ .directive (.x regs.intNo) ::
      (literalTokens ", Error Code: 0x" ++ .directive (.x regs.errCode) ::
        (literalTokens ", EIP: 0x" ++ .directive (.x regs.eip) :: literalTokens ")")))
  have hlog : logWarn ticks unhandledFormat
      [.int regs.intNo, .int regs.errCode, .int regs.eip] = some calls := hcalls
  refine ⟨calls, ?_, ?_⟩
  · rw [isrUnhandledInterrupt, hlog]
    rfl
  · simpa (disch := decide +kernel) [literalTokens_characters, FormatToken.characters,
      Directive.characters, Irq.text] using hprints

theorem decimalText_ne_backspace (v : Int) : (0x08 : UInt8) ∉ decimalText v := by
  have hchar : ∀ d < 10, decimalChar d ≠ 0x08 := by decide
  intro h
  rcases mem_decimalText h with heq | ⟨d, hd, heq⟩
  · exact absurd heq (by decide)
  · exact hchar d hd heq.symm

theorem hexText_ne_backspace (n : Nat) : (0x08 : UInt8) ∉ hexText n := by
  have hchar : ∀ d < 16, hexUpper d ≠ 0x08 := by decide
  intro h
  obtain ⟨d, hd, heq⟩ := mem_hexText h
  exact hchar d hd heq.symm

/-- There is no backspace in a log line unless there is one in its text. -/
theorem LogLevel.line_noBackspace (level : LogLevel) (ticks : UInt64) {text : List UInt8}
    (h : 0x08 ∉ text) : 0x08 ∉ level.line ticks text := by
  have htag : 0x08 ∉ level.tag := by cases level <;> decide
  simp [LogLevel.line, stampText, decimalText_ne_backspace, htag, h]

/-- No key is mapped to the backspace character. -/
theorem Irq.text_noBackspace (irq : Irq) (ticks : UInt64) : 0x08 ∉ irq.text ticks := by
  cases irq with
  | timer => exact List.not_mem_nil
  | keyboard scancode =>
    have hkey : (0x08 : UInt8) ≠ scancodeToAscii[scancode.toNat]?.getD 0 := by
      have hall : ∀ c ∈ scancodeToAscii, 0x08 ≠ c := by decide +kernel
      cases hget : scancodeToAscii[scancode.toNat]? with
      | none => decide
      | some c => exact hall c (List.mem_of_getElem? hget)
    unfold Irq.text
    dsimp only
    generalize scancodeToAscii[scancode.toNat]?.getD 0 = c at hkey ⊢
    split_ifs
    · exact List.not_mem_nil
    · have hwords : 0x08 ∉ bytes "Key: '" ∧ 0x08 ∉ bytes "' (scancode=0x" ∧ 0x08 ∉ bytes ")" := by
        decide
      rw [List.mem_append, not_or]
      refine ⟨LogLevel.line_noBackspace _ _ ?_, by simpa using hkey⟩
      simp [hexText_ne_backspace, hkey, hwords]
    · have hwords : 0x08 ∉ bytes "Key: (special, scancode=0x" ∧ 0x08 ∉ bytes ")" := by decide
      refine LogLevel.line_noBackspace _ _ ?_
      simp [hexText_ne_backspace, hwords]
  | unhandled regs =>
    have hwords : 0x08 ∉ bytes "Unhandled Interrupt (Vector: 0x" ∧
        0x08 ∉ bytes ", Error Code: 0x" ∧ 0x08 ∉ bytes ", EIP: 0x" ∧ 0x08 ∉ bytes ")" := by decide
    refine LogLevel.line_noBackspace _ _ ?_
    simp [hexText_ne_backspace, hwords]

/-- The actions behind the printing: they do not print, and only the timer counts. -/
def Irq.acks : Irq → List Act
  | .timer => irq0TimerHandler
  | .keyboard _ => [.outb pic1Cmd picEoi]
  | .unhandled regs =>
    if regs.intNo ≥ 32 ∧ regs.intNo ≤ 47 then picSendEoi (regs.intNo - 32).toUInt8 else []

theorem Irq.vga_notMem_acks (irq : Irq) (call : VgaCall) : .vga call ∉ irq.acks := by
  cases irq with
  | timer => simp [acks, irq0TimerHandler, picSendEoi]
  | keyboard scancode => simp [acks]
  | unhandled regs =>
    rw [acks, picSendEoi]
    split_ifs <;> simp

/-- **A handler** prints its text and then acknowledges. -/
theorem Irq.acts_prints (irq : Irq) (ticks : UInt64) :
    ∃ calls, irq.acts ticks = some (calls.map .vga ++ irq.acks) ∧
      Prints calls (irq.text ticks) := by
  cases irq with
  | timer => exact ⟨[], rfl, rfl, List.not_mem_nil⟩
  | keyboard scancode => exact keyboardHandler_prints scancode ticks
  | unhandled regs => exact isrUnhandledInterrupt_prints regs ticks

end OsKernel
