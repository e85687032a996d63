import OsKernel.InterruptEoi

/-! # Returning from an interrupt (`gdt_and_idt/isr_stubs.asm`)

Three macros make the stubs, one for each vector of the table at the end of the file, and
all of them end in `isr_common_stub`.  Its epilogue takes the same number of words off the
stack whichever stub came first, so that the interrupted program is resumed as it was only
if every vector is in the table with the macro that fits it.
-/
namespace OsKernel

/-- The registers of the interrupted program. -/
structure CpuContext where
  eax : UInt32
  ecx : UInt32
  edx : UInt32
  ebx : UInt32
  esp : UInt32
  ebp : UInt32
  esi : UInt32
  edi : UInt32
  eip : UInt32
  eflags : UInt32
  cs : UInt16
  ds : UInt16
  es : UInt16
  fs : UInt16
  gs : UInt16
  ss : UInt16
  deriving DecidableEq, Repr

/-- The registers as they are pushed: selectors are extended with zeros. -/
def CpuContext.toCpu (ctx : CpuContext) : Cpu where
  eax := ctx.eax
  ecx := ctx.ecx
  edx := ctx.edx
  ebx := ctx.ebx
  esp := ctx.esp
  ebp := ctx.ebp
  esi := ctx.esi
  edi := ctx.edi
  eip := ctx.eip
  cs := ctx.cs.toUInt32
  eflags := ctx.eflags
  ds := ctx.ds.toUInt32

/-- `gdt_flush`, as far as the segment registers go. -/
def gdtFlush (ctx : CpuContext) : CpuContext :=
  { ctx with cs := 0x08, ds := 0x10, es := 0x10, fs := 0x10, gs := 0x10, ss := 0x10 }

/-! ## The stubs -/

/-- A use of one of the three macros. -/
inductive Stub
  | isrNoErr (vector : UInt32)
  | isrErr (vector : UInt32)
  | irq (line vector : UInt32)
  deriving DecidableEq, Repr

/-- The vector of a stub. -/
def Stub.vector : Stub → UInt32
  | .isrNoErr vector => vector
  | .isrErr vector => vector
  | .irq _ vector => vector

/-- What a stub pushes before it jumps to `isr_common_stub`. -/
def Stub.pushes : Stub → List UInt32
  | .isrNoErr vector => [0, vector]
  | .isrErr vector => [vector]
  | .irq _ vector => [0, vector]

/-- The stubs of the file. -/
def stubTable : List Stub :=
  [.isrNoErr 0, .isrNoErr 1, .isrNoErr 2, .isrNoErr 3, .isrNoErr 4, .isrNoErr 5, .isrNoErr 6,
    .isrNoErr 7, .isrErr 8, .isrNoErr 9, .isrErr 10, .isrErr 11, .isrErr 12, .isrErr 13,
    .isrErr 14, .isrNoErr 15, .isrNoErr 16, .isrErr 17, .isrNoErr 18, .isrNoErr 19,
    .isrNoErr 20, .isrNoErr 21,
    .irq 0 32, .irq 1 33, .irq 2 34, .irq 3 35, .irq 4 36, .irq 5 37, .irq 6 38, .irq 7 39,
    .irq 8 40, .irq 9 41, .irq 10 42, .irq 11 43, .irq 12 44, .irq 13 45, .irq 14 46,
    .irq 15 47]

/-- From the interrupt through its stub to the end of the frame. -/
def enterStub (ctx : CpuContext) (stub : Stub) (errCode : UInt32) (mem : Memory) : Stack :=
  isrCommonStub ctx.toCpu
    ((cpuPush ctx.toCpu stub.vector errCode ⟨mem, ctx.esp⟩).pushAll stub.pushes)

/-- `push esp` and `call isr_common_handler`. -/
def callHandler (frame : Stack) (returnAddr : UInt32) : Stack :=
  (frame.push frame.esp).push returnAddr

/-- `isr_common_stub` from behind its call to its `iret`. -/
def isrReturn (mem : Memory) (cpu : CpuContext) : CpuContext :=
  -- add esp, 4
  let cpu := { cpu with esp := cpu.esp + 4 }
  -- pop eax
  let cpu := { cpu with eax := wordAt mem cpu.esp 0, esp := cpu.esp + 4 }
  -- mov ds, ax; mov es, ax; mov fs, ax; mov gs, ax
  let ax := cpu.eax.toUInt16
  let cpu := { cpu with ds := ax, es := ax, fs := ax, gs := ax }
  -- popa, which skips the stack pointer it finds
  let cpu := { cpu with
    edi := wordAt mem cpu.esp 0, esi := wordAt mem cpu.esp 1, ebp := wordAt mem cpu.esp 2,
    ebx := wordAt mem cpu.esp 4, edx := wordAt mem cpu.esp 5, ecx := wordAt mem cpu.esp 6,
    eax := wordAt mem cpu.esp 7, esp := cpu.esp + 32 }
  -- add esp, 8
  let cpu := { cpu with esp := cpu.esp + 8 }
  -- iret
  { cpu with
    eip := wordAt mem cpu.esp 0, cs := (wordAt mem cpu.esp 1).toUInt16,
    eflags := wordAt mem cpu.esp 2, esp := cpu.esp + 12 }

/-- What a handler does that returns without writing the frame: the stack pointer is back
where the argument was pushed and `ss` is what it was; anything else may have changed. -/
structure HandlerReturns (ctx : CpuContext) (frame called : Stack) (cpu : CpuContext)
    (mem : Memory) : Prop where
  esp : cpu.esp = called.esp + 4
  ss : cpu.ss = ctx.ss
  frame : ∀ i < 14, wordAt mem frame.esp i = wordAt called.mem frame.esp i

variable {ctx cpu : CpuContext} {stub : Stub} {mem mem' : Memory}

/-- **Every vector has the macro that fits it**: only those for which the CPU pushes an
error code leave out the dummy. -/
theorem stubTable_pushes : ∀ stub ∈ stubTable, stub.pushes =
    if hasErrorCode stub.vector then [stub.vector] else [0, stub.vector] := by
  decide

/-- The vectors of the table are those with a stub. -/
theorem hasStub_iff (vector : UInt32) :
    hasStub vector = true ↔ ∃ stub ∈ stubTable, stub.vector = vector := by
  constructor
  · intro h
    have hlt : vector.toNat < 48 := by
      simp only [hasStub, decide_eq_true_eq, UInt32.le_iff_toNat_le, UInt32.reduceToNat] at h
      omega
    have hall : ∀ n < 48, hasStub (UInt32.ofNat n) = true →
        ∃ stub ∈ stubTable, stub.vector = UInt32.ofNat n := by decide
    have hvector := hall vector.toNat hlt
    rw [UInt32.ofNat_toNat] at hvector
    exact hvector h
  · have hall : ∀ stub ∈ stubTable, hasStub stub.vector = true := by decide
    rintro ⟨stub, hstub, rfl⟩
    exact hall stub hstub

theorem enterStub_eq (hstub : stub ∈ stubTable) (ctx : CpuContext) (errCode : UInt32)
    (mem : Memory) : enterStub ctx stub errCode mem =
      enterInterrupt ctx.toCpu stub.vector errCode mem := by
  rw [enterStub, stubTable_pushes stub hstub]
  rfl

/-! ## Words of the frame -/

theorem wordAt_offset (mem : Memory) (p k i : UInt32) :
    wordAt mem (p + 4 * k) i = wordAt mem p (k + i) := by
  have haddr : p + 4 * k + 4 * i = p + 4 * (k + i) := by grind
  rw [wordAt, wordAt, haddr]

theorem Stack.esp_push (s : Stack) (w : UInt32) : s.esp = (s.push w).esp + 4 * 1 := by
  rw [Stack.push]
  grind

/-- A push leaves the words above it. -/
theorem wordAt_push_above (s : Stack) (w : UInt32) {i : UInt32} (hi : i.toNat < 2 ^ 28) :
    wordAt (s.push w).mem s.esp i = wordAt s.mem s.esp i := by
  have hword := wordAt_push_succ s w hi
  rw [UInt32.ofNat_add, UInt32.ofNat_toNat] at hword
  rw [← hword]
  nth_rewrite 1 [s.esp_push w]
  rw [wordAt_offset, UInt32.add_comm]
  rfl

/-- The frame is where it was, below it the argument and the return address. -/
theorem wordAt_callHandler (frame : Stack) (returnAddr : UInt32) {i : UInt32}
    (hi : i.toNat < 2 ^ 27) :
    wordAt (callHandler frame returnAddr).mem frame.esp i = wordAt frame.mem frame.esp i := by
  have hi' : (1 + i).toNat < 2 ^ 28 := by
    rw [UInt32.toNat_add, show (1 : UInt32).toNat = 1 from rfl]
    omega
  have hbelow := wordAt_push_above (frame.push frame.esp) returnAddr hi'
  rw [← wordAt_offset, ← wordAt_offset, ← frame.esp_push] at hbelow
  exact hbelow.trans (wordAt_push_above frame frame.esp (by omega))

theorem callHandler_arg (frame : Stack) (returnAddr : UInt32) :
    wordAt (callHandler frame returnAddr).mem (callHandler frame returnAddr).esp 1 = frame.esp :=
  (wordAt_push_succ _ returnAddr (by decide)).trans (wordAt_push_zero frame frame.esp)

theorem readInterruptFrame_congr {p : UInt32} (h : ∀ i < 14, wordAt mem' p i = wordAt mem p i) :
    readInterruptFrame mem' p = readInterruptFrame mem p := by
  simp only [readInterruptFrame, InterruptFrame.mk.injEq]
  refine ⟨?_, ?_, ?_, ?_, ?_, ?_, ?_, ?_, ?_, ?_, ?_, ?_, ?_, ?_⟩ <;> exact h _ (by decide)

/-- The frame of an interrupt. -/
def interruptFrame (ctx : CpuContext) (stub : Stub) (errCode : UInt32) : InterruptFrame where
  ds := ctx.ds.toUInt32
  edi := ctx.edi
  esi := ctx.esi
  ebp := ctx.ebp
  esp := ctx.esp - 20
  ebx := ctx.ebx
  edx := ctx.edx
  ecx := ctx.ecx
  eax := ctx.eax
  intNo := stub.vector
  errCode := if hasErrorCode stub.vector then errCode else 0
  eip := ctx.eip
  cs := ctx.cs.toUInt32
  eflags := ctx.eflags

theorem readInterruptFrame_enterStub (hstub : stub ∈ stubTable) (ctx : CpuContext)
    (errCode : UInt32) (mem : Memory) :
    readInterruptFrame (enterStub ctx stub errCode mem).mem (enterStub ctx stub errCode mem).esp =
      interruptFrame ctx stub errCode := by
  rw [enterStub_eq hstub]
  exact readInterruptFrame_enterInterrupt ctx.toCpu stub.vector errCode mem

theorem enterStub_esp (hstub : stub ∈ stubTable) (ctx : CpuContext) (errCode : UInt32)
    (mem : Memory) : (enterStub ctx stub errCode mem).esp = ctx.esp - 56 := by
  rw [enterStub_eq hstub, enterInterrupt_eq]
  simp only [interruptWords, Stack.pushAll, List.foldl_cons, List.foldl_nil, Stack.push,
    CpuContext.toCpu]
  grind

/-! ## The way back -/

/-- The epilogue reads the frame word by word. -/
theorem isrReturn_eq (mem : Memory) (cpu : CpuContext) {p : UInt32} (hp : cpu.esp + 4 = p) :
    isrReturn mem cpu =
      let frame := readInterruptFrame mem p
      { eax := frame.eax, ecx := frame.ecx, edx := frame.edx, ebx := frame.ebx, esp := p + 56,
        ebp := frame.ebp, esi := frame.esi, edi := frame.edi, eip := frame.eip,
        eflags := frame.eflags, cs := frame.cs.toUInt16, ds := frame.ds.toUInt16,
        es := frame.ds.toUInt16, fs := frame.ds.toUInt16, gs := frame.ds.toUInt16,
        ss := cpu.ss } := by
  have hpopa : ∀ i, wordAt mem (p + 4) i = wordAt mem p (1 + i) := wordAt_offset mem p 1
  have hiret : ∀ i, wordAt mem (p + 4 + 32 + 8) i = wordAt mem p (11 + i) := fun i => by
    rw [← wordAt_offset mem p 11, UInt32.add_assoc, UInt32.add_assoc]
    rfl
  have hesp : p + 4 + 32 + 8 + 12 = p + 56 := by grind
  simp only [isrReturn, hp, hpopa, hiret, hesp, readInterruptFrame]
  rfl

/-- **Interrupts are transparent.**  For every stub of the table, `isr_common_handler` finds
the interrupted registers in the frame it is given, and if the handler returns without
writing the frame, the interrupted program goes on with every register as it was. -/
theorem interrupt_transparent (hstub : stub ∈ stubTable) (hes : ctx.es = ctx.ds)
    (hfs : ctx.fs = ctx.ds) (hgs : ctx.gs = ctx.ds) (errCode returnAddr : UInt32) (mem : Memory) :
    let frame := enterStub ctx stub errCode mem
    let called := callHandler frame returnAddr
    readInterruptFrame called.mem (wordAt called.mem called.esp 1) =
        interruptFrame ctx stub errCode ∧
      ∀ cpu mem', HandlerReturns ctx frame called cpu mem' → isrReturn mem' cpu = ctx := by
  intro frame called
  have hread : readInterruptFrame called.mem frame.esp = interruptFrame ctx stub errCode := by
    rw [← readInterruptFrame_enterStub hstub ctx errCode mem]
    refine readInterruptFrame_congr fun i hi => wordAt_callHandler frame returnAddr ?_
    have hi' : i.toNat < 14 := UInt32.lt_iff_toNat_lt.mp hi
    omega
  refine ⟨by rw [callHandler_arg, hread], fun cpu mem' hret => ?_⟩
  have hesp : cpu.esp + 4 = frame.esp := by
    rw [hret.esp]
    simp only [called, callHandler, Stack.push]
    grind
  rw [isrReturn_eq mem' cpu hesp, readInterruptFrame_congr hret.frame, hread, hret.ss,
    enterStub_esp hstub]
  obtain ⟨eax, ecx, edx, ebx, esp, ebp, esi, edi, eip, eflags, cs, ds, es, fs, gs, ss⟩ := ctx
  dsimp only at hes hfs hgs
  subst hes hfs hgs
  simp [interruptFrame]

/-- A program of the kernel, somewhere in its code. -/
def kernelContext : CpuContext :=
  gdtFlush ⟨1, 2, 3, 4, 0x90000, 5, 6, 7, 0x101000, 0x202, 0, 0, 0, 0, 0, 0⟩

/-- A general protection fault whose handler leaves other values in all registers it may
change. -/
theorem interrupt_transparent_gp : ∃ cpu mem',
    HandlerReturns kernelContext (enterStub kernelContext (.isrErr 13) 0xABCD fun _ => 0)
      (callHandler (enterStub kernelContext (.isrErr 13) 0xABCD fun _ => 0) 0x100200) cpu mem' ∧
    cpu.eax ≠ kernelContext.eax ∧ isrReturn mem' cpu = kernelContext := by
  have hret : HandlerReturns kernelContext (enterStub kernelContext (.isrErr 13) 0xABCD fun _ => 0)
      (callHandler (enterStub kernelContext (.isrErr 13) 0xABCD fun _ => 0) 0x100200)
      ⟨0, 0, 0, 0, (callHandler (enterStub kernelContext (.isrErr 13) 0xABCD fun _ => 0)
        0x100200).esp + 4, 0, 0, 0, 0, 0, 8, 16, 16, 16, 16, 16⟩
      (callHandler (enterStub kernelContext (.isrErr 13) 0xABCD fun _ => 0) 0x100200).mem :=
    ⟨rfl, rfl, fun _ _ => rfl⟩
  refine ⟨_, _, hret, by decide, ?_⟩
  exact (interrupt_transparent (by decide) rfl rfl rfl 0xABCD 0x100200 fun _ => 0).2 _ _ hret

end OsKernel
