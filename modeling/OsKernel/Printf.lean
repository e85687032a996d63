import OsKernel.Runs
import OsKernel.Vga

/-! # Formatted output (`lib/printf.c`, `log/log.c`)

What `vprintf` prints does not depend on what is on the screen, so it is modelled by
the console calls it makes, in order.  A format is the bytes from the start of the
string on, its `NUL` included; a call that would read past the given bytes, take an
argument that was not passed or overflow an `int` is undefined behaviour, `none`.
-/
namespace OsKernel

/-- The bytes of an ASCII text. -/
def bytes (s : String) : List UInt8 := s.toList.map fun c => UInt8.ofNat c.toNat

/-- A string literal, with its `NUL`. -/
def cString (s : String) : List UInt8 := bytes s ++ [0]

/-- A variadic argument, as the directives read it. -/
inductive Arg
  | int (value : UInt32)
  | ptr (value : UInt32)
  | str (text : List UInt8)
  deriving DecidableEq, Repr

/-! ## Numbers -/

/-- The contents of `buf` in `print_number`: the digits of `unum`, lowest first. -/
def numberBuf (unum : Nat) : List UInt8 :=
  if unum = 0 then [] else UInt8.ofNat (0x30 + unum % 10) :: numberBuf (unum / 10)
decreasing_by omega

/-- `print_number`; the argument is the two's complement of the `int`. -/
def printNumber (num : UInt32) : List VgaCall :=
  if num = 0 then [.putChar 0x30]
  else if num.toNat ≥ 2 ^ 31 then
    .putChar 0x2D :: (numberBuf (~~~num + 1).toNat).reverse.map .putChar
  else (numberBuf num.toNat).reverse.map .putChar

/-- `hex[digit]` -/
def hexChar (digit : UInt32) : UInt8 := (bytes "0123456789ABCDEF")[digit.toNat]!

/-- The loop of `print_hex` and `print_ptr`, over the shifts `i` still to come. -/
def hexDigits (num : UInt32) : List UInt32 → Bool → List VgaCall
  | [], _ => []
  | i :: is, started =>
    let digit := (num >>> i) &&& 0xF
    if digit ≠ 0 ∨ started ∨ i = 0 then .putChar (hexChar digit) :: hexDigits num is true
    else hexDigits num is started

/-- `print_hex` -/
def printHex (num : UInt32) : List VgaCall := hexDigits num [28, 24, 20, 16, 12, 8, 4, 0] false

/-- `print_ptr` -/
def printPtr (ptr : UInt32) : List VgaCall :=
  .write (bytes "0x") :: hexDigits ptr [28, 24, 20, 16, 12, 8, 4, 0] false

/-! ## Colour escapes -/

/-- The digit loop of `handle_ansi`: the code, and the text from the first byte that is no
digit on. -/
def ansiCode : Nat → List UInt8 → Option (Nat × List UInt8)
  | _, [] => none
  | code, c :: rest =>
    if 0x30 ≤ c ∧ c ≤ 0x39 then
      let code := code * 10 + (c.toNat - 0x30)
      if code < 2 ^ 31 then ansiCode code rest else none
    else some (code, c :: rest)

/-- The `switch` of `handle_ansi`. -/
def ansiColor : Nat → List VgaCall
  | 30 => [.setColor 0x00]
  | 31 => [.setColor 0x04]
  | 32 => [.setColor 0x02]
  | 33 => [.setColor 0x06]
  | 34 => [.setColor 0x01]
  | 35 => [.setColor 0x05]
  | 36 => [.setColor 0x03]
  | 37 => [.setColor 0x07]
  | 0 => [.setColor 0x0F]
  | _ => []

/-- `handle_ansi`, on the text after the escape character.  It answers 0 (`some none`), or 1
with the text from the final `m` on. -/
def handleAnsi : List UInt8 → Option (Option (List VgaCall × List UInt8))
  | [] => none
  | c :: rest =>
    if c ≠ 0x5B then some none
    else
      match ansiCode 0 rest with
      | some (code, 0x6D :: rest) => some (some (ansiColor code, 0x6D :: rest))
      | some (_, _) => some none
      | none => none

/-! ## Formats -/

/-- The `switch` of `vprintf` on the byte after a `%`. -/
def directive (d : UInt8) (args : List Arg) : Option (List VgaCall × List Arg) :=
  if d = 0x64 then
    match args with
    | .int v :: args => some (printNumber v, args)
    | _ => none
  else if d = 0x78 then
    match args with
    | .int v :: args => some (printHex v, args)
    | _ => none
  else if d = 0x70 then
    match args with
    | .ptr v :: args => some (printPtr v, args)
    | _ => none
  else if d = 0x73 then
    match args with
    | .str s :: args => some ([.write s], args)
    | _ => none
  else if d = 0x63 then
    match args with
    | .int v :: args => some ([.putChar v.toUInt8], args)
    | _ => none
  else some ([.putChar d], args)

/-- Where `vprintf` is in its format, with the arguments left and the calls made. -/
structure VprintfState where
  fmt : List UInt8
  args : List Arg
  calls : List VgaCall

/-- One turn of the loop of `vprintf`. -/
def vprintfTurn : VprintfState → VprintfState ⊕ Option (List VgaCall)
  | ⟨[], _, _⟩ => .inr none
  | ⟨c :: rest, args, calls⟩ =>
    if c = 0 then .inr (some calls)
    else if c = 0x1B then
      match handleAnsi rest with
      | some (some (cs, fmt)) => .inl ⟨fmt.tail, args, calls ++ cs⟩
      | some none => .inl ⟨rest, args, calls ++ [.putChar c]⟩
      | none => .inr none
    else if c = 0x25 then
      match rest with
      | [] => .inr none
      | d :: rest =>
        match directive d args with
        | some (cs, args) => .inl ⟨rest, args, calls ++ cs⟩
        | none => .inr none
    else .inl ⟨rest, args, calls ++ [.putChar c]⟩

/-- `vprintf`.  Every turn shortens the format, so the length of the format is fuel enough. -/
def vprintf (fmt : List UInt8) (args : List Arg) : Option (List VgaCall) :=
  (iterate vprintfTurn (fmt.length + 1) ⟨fmt, args, []⟩).join

/-- `printf` -/
def printf (fmt : List UInt8) (args : List Arg) : Option (List VgaCall) := vprintf fmt args

/-! ## Log lines -/

/-- `print_timestamp` -/
def printTimestamp (ticks : UInt64) : Option (List VgaCall) := do
  let opening ← printf (cString "[") []
  let number ← printf (cString "%d") [.int ticks.toUInt32]
  let closing ← printf (cString "] ") []
  return opening ++ number ++ closing

/-- The common body of the three log functions. -/
def logLine (tag : String) (ticks : UInt64) (fmt : List UInt8) (args : List Arg) :
    Option (List VgaCall) := do
  let stamp ← printTimestamp ticks
  let tag ← printf (cString tag) []
  let text ← vprintf fmt args
  let reset ← printf (cString "\x1b[0m\n") []
  return stamp ++ tag ++ text ++ reset

/-- `log_info` -/
def logInfo : UInt64 → List UInt8 → List Arg → Option (List VgaCall) := logLine "\x1b[32m[INFO] "

/-- `log_warn` -/
def logWarn : UInt64 → List UInt8 → List Arg → Option (List VgaCall) := logLine "\x1b[33m[WARN] "

/-- `log_error` -/
def logError : UInt64 → List UInt8 → List Arg → Option (List VgaCall) := logLine "\x1b[31m[ERROR] "

end OsKernel
