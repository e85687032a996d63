import OsKernel.ByteMemory
import OsKernel.Printf

/-! # Interrupts (`gdt_and_idt/isr_stubs.asm`, `idt.c`, `cpu/isr.c`, `keyboard.c`, `pic.c`)

An interrupt pushes the interrupted state word by word, and `isr_common_stub` hands
the resulting stack pointer to the dispatcher.  Two structures are declared for what
it points to, `interrupt_frame_t` and `registers_t`; both are read here from the same
bytes, each with its own offsets.

A handler is the list of actions it takes, or `none` when it never returns
(`kernel_panic` halts the machine).
-/
namespace OsKernel

/-! ## Building the frame -/

/-- The interrupted registers. -/
structure Cpu where
  eax : UInt32
  ecx : UInt32
  edx : UInt32
  ebx : UInt32
  esp : UInt32
  ebp : UInt32
  esi : UInt32
  edi : UInt32
  eip : UInt32
  cs : UInt32
  eflags : UInt32
  ds : UInt32

/-- Memory and stack pointer. -/
structure Stack where
  mem : Memory
  esp : UInt32

/-- `push` of a 32-bit word. -/
def Stack.push (s : Stack) (word : UInt32) : Stack :=
  ⟨s.mem.store (s.esp - 4).toNat 4 word.toNat, s.esp - 4⟩

/-- Several pushes, the first word first. -/
def Stack.pushAll (s : Stack) (words : List UInt32) : Stack := words.foldl Stack.push s

/-- The vectors with a stub: exceptions 0..21 and the hardware interrupts 32..47. -/
def hasStub (vector : UInt32) : Bool := vector ≤ 21 ∨ (32 ≤ vector ∧ vector ≤ 47)

/-- The vectors for which the CPU pushes an error code, which are those whose stub is an
`ISR_ERR`. -/
def hasErrorCode (vector : UInt32) : Bool := vector ∈ [8, 10, 11, 12, 13, 14, 17]

/-- What the CPU pushes on an interrupt that does not change the privilege level. -/
def cpuPush (cpu : Cpu) (vector errCode : UInt32) (s : Stack) : Stack :=
  s.pushAll ([cpu.eflags, cpu.cs, cpu.eip] ++ if hasErrorCode vector then [errCode] else [])

/-- `ISR_NO_ERR`, `ISR_ERR` and `IRQ`. -/
def isrStub (vector : UInt32) (s : Stack) : Stack :=
  s.pushAll (if hasErrorCode vector then [vector] else [0, vector])

/-- `isr_common_stub` up to the call: `pusha`, which pushes the stack pointer as it was
before, and `ds`.  The result's stack pointer is the argument of the dispatcher. -/
def isrCommonStub (cpu : Cpu) (s : Stack) : Stack :=
  s.pushAll [cpu.eax, cpu.ecx, cpu.edx, cpu.ebx, s.esp, cpu.ebp, cpu.esi, cpu.edi, cpu.ds]

/-- From the interrupt to the call of the dispatcher. -/
def enterInterrupt (cpu : Cpu) (vector errCode : UInt32) (mem : Memory) : Stack :=
  isrCommonStub cpu (isrStub vector (cpuPush cpu vector errCode ⟨mem, cpu.esp⟩))

/-! ## Reading the frame -/

/-- The `i`-th word behind a pointer. -/
def wordAt (mem : Memory) (p : UInt32) (i : UInt32) : UInt32 :=
  UInt32.ofNat (mem.load (p + 4 * i).toNat 4)

/-- `interrupt_frame_t`, without the two words that are only there after a change of
privilege level. -/
structure InterruptFrame where
  ds : UInt32
  edi : UInt32
  esi : UInt32
  ebp : UInt32
  esp : UInt32
  ebx : UInt32
  edx : UInt32
  ecx : UInt32
  eax : UInt32
  intNo : UInt32
  errCode : UInt32
  eip : UInt32
  cs : UInt32
  eflags : UInt32

/-- A pointer read as `interrupt_frame_t *`. -/
def readInterruptFrame (mem : Memory) (p : UInt32) : InterruptFrame where
  ds := wordAt mem p 0
  edi := wordAt mem p 1
  esi := wordAt mem p 2
  ebp := wordAt mem p 3
  esp := wordAt mem p 4
  ebx := wordAt mem p 5
  edx := wordAt mem p 6
  ecx := wordAt mem p 7
  eax := wordAt mem p 8
  intNo := wordAt mem p 9
  errCode := wordAt mem p 10
  eip := wordAt mem p 11
  cs := wordAt mem p 12
  eflags := wordAt mem p 13

/-- `registers_t`, without the two words that are only there after a change of privilege
level. -/
structure Registers where
  edi : UInt32
  esi : UInt32
  ebp : UInt32
  esp : UInt32
  ebx : UInt32
  edx : UInt32
  ecx : UInt32
  eax : UInt32
  intNo : UInt32
  errCode : UInt32
  eip : UInt32
  cs : UInt32
  eflags : UInt32

/-- A pointer read as `registers_t *`: this structure has no `ds`. -/
def readRegisters (mem : Memory) (p : UInt32) : Registers where
  edi := wordAt mem p 0
  esi := wordAt mem p 1
  ebp := wordAt mem p 2
  esp := wordAt mem p 3
  ebx := wordAt mem p 4
  edx := wordAt mem p 5
  ecx := wordAt mem p 6
  eax := wordAt mem p 7
  intNo := wordAt mem p 8
  errCode := wordAt mem p 9
  eip := wordAt mem p 10
  cs := wordAt mem p 11
  eflags := wordAt mem p 12

/-! ## Handlers -/

/-- One action of a handler that the outside can see. -/
inductive Act
  | vga (call : VgaCall)
  | outb (port : UInt16) (value : UInt8)
  | tick
  deriving DecidableEq, Repr

/-- An action that is not interrupted. -/
def Act.run : Act → Machine → Option Machine
  | .vga call, m => call.run m
  | .outb port value, m => some (OsKernel.outb port value m)
  | .tick, m => some { m with ticks := m.ticks + 1 }

/-- Actions one after the other. -/
def runActs (acts : List Act) (m : Machine) : Option Machine := acts.foldlM (fun m a => a.run m) m

/-- `PIC1_CMD` -/
def pic1Cmd : UInt16 := 0x20

/-- `PIC2_CMD` -/
def pic2Cmd : UInt16 := 0xA0

/-- `PIC_EOI` -/
def picEoi : UInt8 := 0x20

/-- `pic_send_eoi` -/
def picSendEoi (irq : UInt8) : List Act :=
  (if irq ≥ 8 then [.outb pic2Cmd picEoi] else []) ++ [.outb pic1Cmd picEoi]

/-- `irq0_timer_handler` -/
def irq0TimerHandler : List Act := .tick :: picSendEoi 0

/-- The format of `isr_unhandled_interrupt`. -/
def unhandledFormat : List UInt8 :=
  cString "Unhandled Interrupt (Vector: 0x%x, Error Code: 0x%x, EIP: 0x%x)"

/-- `isr_unhandled_interrupt` -/
def isrUnhandledInterrupt (regs : Registers) (ticks : UInt64) : Option (List Act) := do
  let warning ← logWarn ticks unhandledFormat [.int regs.intNo, .int regs.errCode, .int regs.eip]
  let eoi :=
    if regs.intNo ≥ 32 ∧ regs.intNo ≤ 47 then picSendEoi (regs.intNo - 32).toUInt8 else []
  return warning.map .vga ++ eoi

/-- `scancode_to_ascii` -/
def scancodeToAscii : List UInt8 :=
  [0, 0] ++ bytes "1234567890-=" ++ [0, 0x09] ++ bytes "qwertyuiop[]" ++ [0x0A, 0] ++
    bytes "asdfghjkl;'" ++ [0x60, 0] ++ bytes "\\zxcvbnm,./" ++ [0, 0x2A, 0, 0x20]

/-- `keyboard_handler`, for the scancode it reads from the keyboard. -/
def keyboardHandler (scancode : UInt8) (ticks : UInt64) : Option (List Act) :=
  -- a key release is only acknowledged
  if scancode &&& 0x80 ≠ 0 then some [.outb pic1Cmd picEoi]
  else
    let c := scancodeToAscii[scancode.toNat]?.getD 0
    if c ≠ 0 then do
      let line ← logInfo ticks (cString "Key: '%c' (scancode=0x%x)")
        [.int c.toUInt32, .int scancode.toUInt32]
      return line.map .vga ++ [.vga (.putChar c), .outb pic1Cmd picEoi]
    else do
      let line ← logInfo ticks (cString "Key: (special, scancode=0x%x)") [.int scancode.toUInt32]
      return line.map .vga ++ [.outb pic1Cmd picEoi]

/-! ## Dispatch -/

/-- The C functions that are registered as handlers. -/
inductive Handler
  | divideByZero
  | invalidOpcode
  | doubleFault
  | generalProtection
  | pageFault
  | irq0Timer
  | keyboard
  | unhandled
  deriving DecidableEq, Repr

/-- `isr_handlers`; `none` is `NULL`. -/
abbrev HandlerTable := Nat → Option Handler

/-- `idt_register_handler` -/
def idtRegisterHandler (vector : Nat) (fn : Handler) (table : HandlerTable) : HandlerTable :=
  Function.update table vector (some fn)

/-- The handler table `idt_init` leaves behind. -/
def idtInit : HandlerTable :=
  let table : HandlerTable := fun _ => none
  let table := idtRegisterHandler 0 .divideByZero table
  let table := idtRegisterHandler 6 .invalidOpcode table
  let table := idtRegisterHandler 8 .doubleFault table
  let table := idtRegisterHandler 13 .generalProtection table
  let table := idtRegisterHandler 14 .pageFault table
  let table := idtRegisterHandler 32 .irq0Timer table
  -- every vector that is still free gets the generic handler
  (List.range 256).foldl (fun table i =>
    if table i = none then Function.update table i (some .unhandled) else table) table

/-- `keyboard_init`, without its log line. -/
def keyboardInit (table : HandlerTable) : HandlerTable := idtRegisterHandler 33 .keyboard table

/-- What a handler does, called with the frame at `frame`.  The handlers of exceptions call
`kernel_panic`, which does not return. -/
def Handler.acts (mem : Memory) (frame : UInt32) (scancode : UInt8) (ticks : UInt64) :
    Handler → Option (List Act)
  | .divideByZero | .invalidOpcode | .doubleFault | .generalProtection | .pageFault => none
  | .irq0Timer => some irq0TimerHandler
  | .keyboard => keyboardHandler scancode ticks
  | .unhandled => isrUnhandledInterrupt (readRegisters mem frame) ticks

/-- `isr_common_handler`; a vector outside the table is undefined behaviour. -/
def isrCommonHandler (table : HandlerTable) (mem : Memory) (frame : UInt32) (scancode : UInt8)
    (ticks : UInt64) : Option (List Act) :=
  let intNo := (readInterruptFrame mem frame).intNo
  if intNo.toNat ≥ 256 then none
  else
    match table intNo.toNat with
    | some handler => handler.acts mem frame scancode ticks
    | none => isrUnhandledInterrupt (readRegisters mem frame) ticks

/-- **One interrupt, from the CPU to the return of the dispatcher**; `none` when it does not
return. -/
def dispatch (table : HandlerTable) (cpu : Cpu) (vector errCode : UInt32) (mem : Memory)
    (scancode : UInt8) (m : Machine) : Option Machine := do
  let frame := enterInterrupt cpu vector errCode mem
  let acts ← isrCommonHandler table frame.mem frame.esp scancode m.ticks
  runActs acts m

end OsKernel
