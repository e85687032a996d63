import OsKernel.ConsoleLock
import OsKernel.PicRuns

/-! # Hardware interrupts and their handlers

A run of the whole: devices at the sixteen lines, the two interrupt controllers, the main line,
which works on the console step by step, and the handler that has interrupted it.  Interrupts
are enabled from the end of `idt_init` on, and `keyboard_init` registers its handler later.
Interrupt gates clear the interrupt flag, so that a handler is not interrupted; devices raise
their lines all the same.  Left out are the two exceptions with trap gates, 1 and 3, and
exceptions inside a handler.

The generic handler acknowledges what the interrupted `eax` says and so may leave a line in
service for good.  That never stops the timer or the keyboard, whose lines are more urgent.
What stops them is a handler that waits for the console lock of the main line.
-/
namespace OsKernel

/-! ## Events -/

/-- The machine with its controllers, `isr_handlers`, and what the main line and the running
handler still have to do. -/
structure IrqState where
  pc : Pc
  table : HandlerTable
  main : List Micro
  handler : Option (List Micro)

/-- The registers and the memory that an interrupt finds, and what the keyboard sends. -/
structure Interrupted where
  cpu : Cpu
  mem : Memory
  scancode : UInt8

/-- What can happen. -/
inductive IrqEvent
  | raise (n : Fin 16)
  | lower (n : Fin 16)
  | take (vector : UInt8) (found : Interrupted)
  | spurious (vector : UInt8) (found : Interrupted)
  | exception (vector errCode : UInt32) (found : Interrupted)
  | handler
  | iret
  | call (a : Act)
  | main
  | keyboardInit

/-- The hardware interrupt that the CPU takes. -/
def IrqEvent.taken : IrqEvent → Option UInt8
  | .take v _ => some v
  | _ => none

/-- The vectors of the hardware interrupts that were taken. -/
def takenVectors (events : List IrqEvent) : List UInt8 := events.filterMap IrqEvent.taken

/-- What the handler of a vector does, found and called the way the CPU, the stub and the
dispatcher do it. -/
def handlerActs (table : HandlerTable) (vector errCode : UInt32) (i : Interrupted)
    (ticks : UInt64) : Option (List Act) :=
  let frame := enterInterrupt i.cpu vector errCode i.mem
  isrCommonHandler table frame.mem frame.esp i.scancode ticks

/-- The main line prints and programs devices, but sends no commands to the controllers. -/
def MainAct : Act → Prop
  | .vga _ => True
  | .outb port _ => port ≠ pic1Cmd ∧ port ≠ pic2Cmd
  | .tick => False

/-- One step of the CPU, with what it sends to the controllers; `none` when it finds the lock
held. -/
def Pc.step (x : Micro) (s : Pc) : Option Pc := do
  let m ← x.run s.machine
  return ⟨s.pics.after (m.out.drop s.machine.out.length), m⟩

/-- One event. -/
inductive IrqStep (s : IrqState) : IrqEvent → IrqState → Prop
  | raise (n : Fin 16) :
      IrqStep s (.raise n) { s with pc.pics := s.pc.pics.raise n }
  | lower (n : Fin 16) :
      IrqStep s (.lower n) { s with pc.pics := s.pc.pics.lower n }
  | take {v : UInt8} {p : Cascade} {i : Interrupted} {acts : List Act}
      (hidle : s.handler = none) (hack : s.pc.pics.acknowledge = some (v, p))
      (hacts : handlerActs s.table v.toUInt32 0 i s.pc.machine.ticks = some acts) :
      IrqStep s (.take v i)
        { s with pc.pics := p, handler := some (acts.flatMap Act.micros) }
  | spurious {i : Interrupted} {acts : List Act} (hidle : s.handler = none)
      (hacts : handlerActs s.table s.pc.pics.spurious.1.toUInt32 0 i s.pc.machine.ticks =
        some acts) :
      IrqStep s (.spurious s.pc.pics.spurious.1 i)
        { s with pc.pics := s.pc.pics.spurious.2, handler := some (acts.flatMap Act.micros) }
  | spuriousSlave {i : Interrupted} {acts : List Act} (hidle : s.handler = none)
      (hacts : handlerActs s.table s.pc.pics.spuriousSlave.1.toUInt32 0 i s.pc.machine.ticks =
        some acts) :
      IrqStep s (.spurious s.pc.pics.spuriousSlave.1 i)
        { s with
          pc.pics := s.pc.pics.spuriousSlave.2
          handler := some (acts.flatMap Act.micros) }
  | exception {vector errCode : UInt32} {i : Interrupted} {acts : List Act}
      (hidle : s.handler = none) (hvector : vector ≤ 21 ∧ vector ≠ 1 ∧ vector ≠ 3)
      (hacts : handlerActs s.table vector errCode i s.pc.machine.ticks = some acts) :
      IrqStep s (.exception vector errCode i)
        { s with handler := some (acts.flatMap Act.micros) }
  | handler {x : Micro} {rest : List Micro} {pc : Pc} (hbusy : s.handler = some (x :: rest))
      (hrun : s.pc.step x = some pc) :
      IrqStep s .handler { s with pc := pc, handler := some rest }
  | handlerSpins {x : Micro} {rest : List Micro} (hbusy : s.handler = some (x :: rest))
      (hspins : s.pc.step x = none) : IrqStep s .handler s
  | iret (hdone : s.handler = some []) : IrqStep s .iret { s with handler := none }
  | call {a : Act} (hidle : s.handler = none) (hfree : s.main = []) (hmain : MainAct a) :
      IrqStep s (.call a) { s with main := a.micros }
  | main {x : Micro} {rest : List Micro} {pc : Pc} (hidle : s.handler = none)
      (hbusy : s.main = x :: rest) (hrun : s.pc.step x = some pc) :
      IrqStep s .main { s with pc := pc, main := rest }
  | mainSpins {x : Micro} {rest : List Micro} (hidle : s.handler = none)
      (hbusy : s.main = x :: rest) (hspins : s.pc.step x = none) : IrqStep s .main s
  | keyboardInit (hidle : s.handler = none) (hfree : s.main = []) :
      IrqStep s .keyboardInit { s with table := keyboardInit s.table }

variable {s t u : IrqState} {e : IrqEvent} {events : List IrqEvent} {acts : List Act}
  {steps rest : List Micro} {x : Micro} {p p' : Cascade} {vector errCode : UInt32}
  {i : Interrupted} {ticks : UInt64} {v : UInt8} {a : Act} {pc pc' : Pc} {table : HandlerTable}
  {m m' : Machine}

/-! ## Steps -/

/-- The bytes that steps send to ports, those of the console apart. -/
def stepWrites (steps : List Micro) : List PortWrite :=
  steps.filterMap fun
    | .outb port value => some ⟨port, value⟩
    | _ => none

/-- How often steps count a tick. -/
def tickCount (steps : List Micro) : Nat := steps.count .tick

theorem stepWrites_append (steps rest : List Micro) :
    stepWrites (steps ++ rest) = stepWrites steps ++ stepWrites rest := List.filterMap_append

theorem stepWrites_cons (x : Micro) (rest : List Micro) :
    stepWrites (x :: rest) = stepWrites [x] ++ stepWrites rest := stepWrites_append [x] rest

theorem tickCount_append (steps rest : List Micro) :
    tickCount (steps ++ rest) = tickCount steps + tickCount rest := List.count_append

/-- The steps of a console function send nothing to the controllers and count no tick. -/
theorem micros_vga (call : VgaCall) :
    stepWrites (Act.vga call).micros = [] ∧ tickCount (Act.vga call).micros = 0 := by
  have hother : ∀ x ∈ (Act.vga call).micros, x = .acquire ∨ (∃ y, x = .vga y) ∨ x = .release := by
    intro x hx
    rw [Act.micros, VgaCall.micros] at hx
    rcases List.mem_cons.mp hx with rfl | hx
    · exact .inl rfl
    rcases List.mem_append.mp hx with hx | hx
    · obtain ⟨y, -, rfl⟩ := List.mem_map.mp hx
      exact .inr (.inl ⟨y, rfl⟩)
    · exact .inr (.inr (List.mem_singleton.mp hx))
  constructor
  · refine List.filterMap_eq_nil_iff.mpr fun x hx => ?_
    rcases hother x hx with rfl | ⟨y, rfl⟩ | rfl <;> rfl
  · refine List.count_eq_zero_of_not_mem fun hx => ?_
    rcases hother _ hx with h | ⟨y, h⟩ | h <;> cases h

/-- Whether a handler is looked at by its actions or by their steps. -/
theorem stepWrites_micros (acts : List Act) :
    stepWrites (acts.flatMap Act.micros) = portWrites acts := by
  induction acts with
  | nil => rfl
  | cons a acts ih =>
    rw [List.flatMap_cons, stepWrites_append, ih]
    cases a with
    | vga call => rw [(micros_vga call).1]; rfl
    | outb port value => rfl
    | tick => rfl

theorem tickCount_micros (acts : List Act) :
    tickCount (acts.flatMap Act.micros) = acts.count .tick := by
  induction acts with
  | nil => rfl
  | cons a acts ih =>
    rw [List.flatMap_cons, tickCount_append, ih, List.count_cons, Nat.add_comm]
    cases a with
    | vga call => rw [(micros_vga call).2]; rfl
    | outb port value => rfl
    | tick => rfl

/-- **What one step does to the controllers and to the tick counter.** -/
theorem Pc.step_pics (h : pc.step x = some pc') :
    pc'.pics = pc.pics.after (stepWrites [x]) ∧
      pc'.machine.ticks = pc.machine.ticks + UInt64.ofNat (tickCount [x]) ∧
      x.run pc.machine = some pc'.machine := by
  rw [Pc.step, Option.bind_eq_bind, Option.bind_eq_some_iff] at h
  obtain ⟨m, hrun, heq⟩ := h
  obtain rfl := Option.some.inj heq
  suffices hall : (∃ out, m.out = pc.machine.out ++ out ∧
      pc.pics.after out = pc.pics.after (stepWrites [x])) ∧
      m.ticks = pc.machine.ticks + UInt64.ofNat (tickCount [x]) by
    obtain ⟨⟨out, hout, hafter⟩, hticks⟩ := hall
    refine ⟨?_, hticks, hrun⟩
    dsimp only
    rw [hout, List.drop_left, hafter]
  have hsame : ∃ out, pc.machine.out = pc.machine.out ++ out ∧ pc.pics.after out = pc.pics :=
    ⟨[], (List.append_nil _).symm, rfl⟩
  cases x with
  | acquire =>
    rw [Micro.run] at hrun
    split_ifs at hrun
    obtain rfl := Option.some.inj hrun
    exact ⟨hsame, (UInt64.add_zero _).symm⟩
  | release =>
    obtain rfl := Option.some.inj hrun
    exact ⟨hsame, (UInt64.add_zero _).symm⟩
  | vga step =>
    obtain rfl := Option.some.inj hrun
    have honly := step.run_consoleOnly pc.machine
    obtain ⟨out, hout, hports⟩ := honly.out
    exact ⟨⟨out, hout, Cascade.after_console hports⟩, honly.ticks.trans (UInt64.add_zero _).symm⟩
  | outb port value =>
    obtain rfl := Option.some.inj hrun
    exact ⟨⟨_, rfl, rfl⟩, (UInt64.add_zero _).symm⟩
  | tick =>
    obtain rfl := Option.some.inj hrun
    exact ⟨hsame, rfl⟩

/-- A step waits only for the lock. -/
theorem Pc.step_returns (h : x = .acquire → pc.machine.locked = false) :
    ∃ pc', pc.step x = some pc' := by
  have hrun : ∃ m, x.run pc.machine = some m := by
    cases x with
    | acquire => exact ⟨_, if_neg (by rw [h rfl]; exact Bool.false_ne_true)⟩
    | release | vga | outb | tick => exact ⟨_, rfl⟩
  obtain ⟨m, hm⟩ := hrun
  refine ⟨⟨pc.pics.after (m.out.drop pc.machine.out.length), m⟩, ?_⟩
  rw [Pc.step, hm, Option.bind_eq_bind, Option.bind_some]
  rfl

/-! ## What handlers send -/

/-- An end-of-interrupt command to the master, and to the slave. -/
def eoiMaster : PortWrite := ⟨pic1Cmd, picEoi⟩
def eoiSlave : PortWrite := ⟨pic2Cmd, picEoi⟩

/-- What the generic handler sends, by the vector it sees. -/
def unhandledEois (intNo : UInt32) : List PortWrite :=
  if intNo ≥ 32 ∧ intNo ≤ 47 then portWrites (picSendEoi (intNo - 32).toUInt8) else []

/-- What a handler that returns sends, when the interrupted `eax` was this. -/
def Handler.eois (eax : UInt32) : Handler → List PortWrite
  | .irq0Timer | .keyboard => [eoiMaster]
  | .unhandled => unhandledEois eax
  | _ => []

/-- How often a handler counts a tick. -/
def Handler.counts : Handler → Nat
  | .irq0Timer => 1
  | _ => 0

/-- What can be seen of a handler that returns. -/
structure Handler.Serves (handler : Handler) (eax : UInt32) (ticks : UInt64) (acts : List Act) :
    Prop where
  irq : ∃ irq : Irq, irq.acts ticks = some acts
  writes : portWrites acts = handler.eois eax
  ticks : acts.count .tick = handler.counts
  returns : handler = .irq0Timer ∨ handler = .keyboard ∨ handler = .unhandled

theorem count_tick_vga (calls : List VgaCall) : (calls.map Act.vga).count .tick = 0 :=
  List.count_eq_zero_of_not_mem fun h => by
    obtain ⟨call, -, hcall⟩ := List.mem_map.mp h
    cases hcall

/-- **What a handler does, if it returns.** -/
theorem Handler.serves {handler : Handler} {mem : Memory} {frame : UInt32} {scancode : UInt8}
    (h : handler.acts mem frame scancode ticks = some acts) :
    handler.Serves (readRegisters mem frame).intNo ticks acts := by
  cases handler with
  | divideByZero | invalidOpcode | doubleFault | generalProtection | pageFault => cases h
  | irq0Timer =>
    obtain rfl := Option.some.inj h
    exact ⟨⟨.timer, rfl⟩, rfl, rfl, .inl rfl⟩
  | keyboard =>
    obtain ⟨calls, hacts, -⟩ := keyboardHandler_eq scancode ticks
    obtain rfl := Option.some.inj (hacts.symm.trans h)
    refine ⟨⟨.keyboard scancode, hacts⟩, ?_, ?_, .inr (.inl rfl)⟩
    · rw [portWrites_append, portWrites_vga]
      rfl
    · rw [List.count_append, count_tick_vga]
      rfl
  | unhandled =>
    obtain ⟨call, calls, hacts⟩ := isrUnhandledInterrupt_eq (readRegisters mem frame) ticks
    obtain rfl := Option.some.inj (hacts.symm.trans h)
    refine ⟨⟨.unhandled _, hacts⟩, ?_, ?_, .inr (.inr rfl)⟩
    · rw [portWrites_append, portWrites_vga, Handler.eois, unhandledEois]
      split_ifs <;> rfl
    · rw [List.count_append, count_tick_vga]
      unfold picSendEoi
      split_ifs <;> rfl

theorem handlerActs_eq {handler : Handler} (hvector : vector.toNat < 256)
    (htable : table vector.toNat = some handler) (errCode : UInt32) (i : Interrupted)
    (ticks : UInt64) :
    handlerActs table vector errCode i ticks =
      handler.acts (enterInterrupt i.cpu vector errCode i.mem).mem
        (enterInterrupt i.cpu vector errCode i.mem).esp i.scancode ticks := by
  rw [handlerActs, isrCommonHandler, readInterruptFrame_enterInterrupt]
  dsimp only
  rw [if_neg (Nat.not_le.mpr hvector), htable]

/-- **The dispatcher** calls the handler of the vector, and that sees the interrupted `eax` for
the vector. -/
theorem handlerActs_serves (h : handlerActs table vector errCode i ticks = some acts) :
    ((table vector.toNat).getD .unhandled).Serves i.cpu.eax ticks acts := by
  have hint : (readInterruptFrame (enterInterrupt i.cpu vector errCode i.mem).mem
      (enterInterrupt i.cpu vector errCode i.mem).esp).intNo = vector := by
    rw [readInterruptFrame_enterInterrupt]
  have heax : (readRegisters (enterInterrupt i.cpu vector errCode i.mem).mem
      (enterInterrupt i.cpu vector errCode i.mem).esp).intNo = i.cpu.eax := by
    rw [readRegisters_enterInterrupt]
  rw [handlerActs, isrCommonHandler, hint] at h
  split_ifs at h
  cases hhandler : table vector.toNat with
  | none =>
    rw [hhandler] at h
    have hfree : Handler.unhandled.acts (enterInterrupt i.cpu vector errCode i.mem).mem
        (enterInterrupt i.cpu vector errCode i.mem).esp i.scancode ticks = some acts := h
    exact heax ▸ Handler.serves hfree
  | some handler =>
    rw [hhandler] at h
    exact heax ▸ Handler.serves h

/-- Every handler sends end-of-interrupt commands only. -/
theorem Handler.mem_eois {handler : Handler} {eax : UInt32} {w : PortWrite}
    (hw : w ∈ handler.eois eax) : w = eoiMaster ∨ w = eoiSlave := by
  cases handler with
  | divideByZero | invalidOpcode | doubleFault | generalProtection | pageFault => cases hw
  | irq0Timer | keyboard => exact .inl (List.mem_singleton.mp hw)
  | unhandled =>
    change w ∈ unhandledEois eax at hw
    unfold unhandledEois picSendEoi at hw
    split_ifs at hw
    · exact (List.mem_pair.mp hw).symm
    · exact .inl (List.mem_singleton.mp hw)
    · cases hw

/-! ## The handler table -/

/-- What `idt_init` and `keyboard_init` leave in `isr_handlers`. -/
structure Tabled (table : HandlerTable) : Prop where
  other : ∀ n, n < 256 → n ≠ 33 → table n = some (handlerOf n)
  keyboard : table 33 = some .unhandled ∨ table 33 = some .keyboard

theorem tabled_idtInit : Tabled idtInit := by
  refine ⟨fun n hn hne => ?_, .inl ?_⟩
  · rw [← keyboardInit_idtInit_apply hn, keyboardInit, idtRegisterHandler,
      Function.update_of_ne hne]
  · unfold idtInit
    rw [fillHandlers_apply, if_pos (by decide)]
    rfl

theorem Tabled.keyboardInit (h : Tabled table) : Tabled (keyboardInit table) := by
  refine ⟨fun n hn hne => ?_, .inr ?_⟩
  · rw [OsKernel.keyboardInit, idtRegisterHandler, Function.update_of_ne hne, h.other n hn hne]
  · rw [OsKernel.keyboardInit, idtRegisterHandler, Function.update_self]

theorem Tabled.handler (h : Tabled table) {n : Nat} (hn : n < 256) :
    ∃ handler, table n = some handler ∧ (handler = .irq0Timer ↔ n = 32) ∧
      (handler = .keyboard → n = 33) := by
  rcases eq_or_ne n 33 with rfl | hne
  · rcases h.keyboard with hkey | hkey
    · exact ⟨_, hkey, by decide, by decide⟩
    · exact ⟨_, hkey, by decide, by decide⟩
  · refine ⟨_, h.other n hn hne, ?_, ?_⟩
    · unfold handlerOf
      split <;> simp_all
    · unfold handlerOf
      split <;> simp_all

/-- The exceptions whose handlers return have no handler of their own. -/
theorem Tabled.unhandled_of_exception (h : Tabled table) (hvector : vector ≤ 21)
    (hacts : handlerActs table vector errCode i ticks = some acts) :
    table vector.toNat = some .unhandled := by
  have hle : vector.toNat ≤ 21 := UInt32.le_iff_toNat_le.mp hvector
  obtain ⟨handler, htable, htimer, hkeyboard⟩ := h.handler (show vector.toNat < 256 by omega)
  have hreturns := (handlerActs_serves hacts).returns
  rw [htable, Option.getD_some] at hreturns
  rcases hreturns with heq | heq | rfl
  · have := htimer.mp heq
    omega
  · have := hkeyboard heq
    omega
  · exact htable

/-! ## The console lock -/

/-- The CPU, seen from the console. -/
def IrqState.kernel (s : IrqState) : KernelState := ⟨s.pc.machine, s.main, s.handler⟩

theorem IrqState.kernel_of_idle (h : s.handler = none) :
    s.kernel = ⟨s.pc.machine, s.main, none⟩ := by rw [kernel, h]

/-- An interrupt, seen from the console. -/
theorem KernelStep.of_handlerActs (hidle : s.handler = none)
    (hacts : handlerActs table vector errCode i s.pc.machine.ticks = some acts) :
    ∃ ev, KernelStep s.kernel ev ⟨s.pc.machine, s.main, some (acts.flatMap Act.micros)⟩ := by
  obtain ⟨irq, hirq⟩ := (handlerActs_serves hacts).irq
  rw [IrqState.kernel_of_idle hidle]
  exact ⟨.interrupt irq, .interrupt hirq⟩

/-- **Seen from the console, every event is a step of the CPU**, or is none of its business, or
is the main line starting to program a device. -/
theorem IrqStep.kernelStep (h : IrqStep s e t) :
    t.kernel = s.kernel ∨ (∃ ev, KernelStep s.kernel ev t.kernel) ∨
      ∃ port value, s.kernel = ⟨s.pc.machine, [], none⟩ ∧
        t.kernel = ⟨s.pc.machine, [.outb port value], none⟩ := by
  cases h with
  | raise | lower | keyboardInit | handlerSpins | mainSpins => exact .inl rfl
  | take hidle _ hacts | spurious hidle hacts | spuriousSlave hidle hacts
  | exception hidle _ hacts => exact .inr (.inl (KernelStep.of_handlerActs hidle hacts))
  | handler hbusy hrun =>
    refine .inr (.inl ⟨.handler, ?_⟩)
    rw [IrqState.kernel, hbusy]
    exact .handler (Pc.step_pics hrun).2.2
  | iret hdone =>
    refine .inr (.inl ⟨.handler, ?_⟩)
    rw [IrqState.kernel, hdone]
    exact .iret
  | @call a hidle hfree hmain =>
    have hkernel : s.kernel = ⟨s.pc.machine, [], none⟩ := by
      rw [IrqState.kernel_of_idle hidle, hfree]
    cases a with
    | vga call =>
      have hcall : KernelStep ⟨s.pc.machine, [], none⟩ (.call (.vga call))
          ⟨s.pc.machine, [call].flatMap VgaCall.micros, none⟩ := .call rfl
      rw [List.flatMap_singleton] at hcall
      refine .inr (.inl ⟨.call (.vga call), ?_⟩)
      rw [hkernel, IrqState.kernel, hidle]
      exact hcall
    | outb port value =>
      refine .inr (.inr ⟨port, value, hkernel, ?_⟩)
      rw [IrqState.kernel, hidle]
      rfl
    | tick => exact hmain.elim
  | main hidle hbusy hrun =>
    refine .inr (.inl ⟨.main, ?_⟩)
    rw [IrqState.kernel_of_idle hidle, hbusy, IrqState.kernel, hidle]
    exact .main (Pc.step_pics hrun).2.2

/-- **Every event keeps the lock owned.** -/
theorem IrqStep.lockOwner (h : IrqStep s e t) (hs : LockOwner s.kernel) : LockOwner t.kernel := by
  rcases h.kernelStep with hsame | ⟨ev, hstep⟩ | ⟨port, value, hidle, hstarts⟩
  · exact hsame.symm ▸ hs
  · exact hs.step hstep
  · rw [hidle] at hs
    rw [hstarts]
    cases hs with
    | main hfree => exact .main (unlocked_of_wellLocked_nil hfree ▸ rfl)

/-- The handler still has to take the lock, and the main line that it has interrupted holds
it. -/
def IrqState.WaitsForMain (s : IrqState) : Prop :=
  inCritical s.main = true ∧ ∃ steps, s.handler = some steps ∧ .acquire ∈ steps

/-- A handler that does not wait for the main line gets on. -/
theorem LockOwner.step_returns (h : LockOwner s.kernel) (hbusy : s.handler = some (x :: rest))
    (hfree : ¬ s.WaitsForMain) : ∃ pc, s.pc.step x = some pc := by
  refine Pc.step_returns fun hx => ?_
  subst hx
  rw [IrqState.kernel, hbusy] at h
  cases h with
  | suspended _ hmain _ =>
    exact absurd ⟨inCritical_of_wellLocked hmain, _, hbusy, List.mem_cons_self⟩ hfree
  | handler _ hhandler =>
    exact Bool.not_eq_eq_eq_not.mp (Bool.and_eq_true_iff.mp hhandler).1

/-- No line before line `l` is in service. -/
def Calm (l : Nat) (p : Cascade) : Prop := ∀ k ∈ p.master.serving, l ≤ k.val

/-- What a handler still sends leaves the lines before line `l` out of service. -/
def Settles (l : Nat) (p : Cascade) (steps : List Micro) : Prop :=
  (Calm l p ∧ ∀ w ∈ stepWrites steps, w = eoiMaster ∨ w = eoiSlave) ∨
    stepWrites steps = [eoiMaster] ∧
      ∃ k ∈ p.master.serving, k.val < l ∧ ∀ j ∈ p.master.serving, j = k ∨ l ≤ j.val

/-- What the main line still sends is not for the controllers' services. -/
def MainMicro : Micro → Prop
  | .outb port _ => port ≠ pic1Cmd ∧ port ≠ pic2Cmd
  | .tick => False
  | _ => True

/-- What holds in every state. -/
structure Delivers (l : Nat) (s : IrqState) : Prop where
  setUp : s.pc.pics.SetUp
  owner : LockOwner s.kernel
  table : Tabled s.table
  main : ∀ x ∈ s.main, MainMicro x
  calm : s.handler = none → Calm l s.pc.pics
  settles : ∀ steps, s.handler = some steps → Settles l s.pc.pics steps

variable {l : Nat}

theorem Calm.dropFirst (h : Calm l p) (hserving : p'.master.serving = dropFirst p.master.serving) :
    Calm l p' := by
  intro k hk
  rw [hserving] at hk
  exact h k (dropFirst_subset _ hk)

/-- The command ends the interrupt that is more urgent than all others. -/
theorem calm_of_settling {k : Fin 8} (hk : k ∈ p.master.serving) (hurgent : k.val < l)
    (hothers : ∀ j ∈ p.master.serving, j = k ∨ l ≤ j.val)
    (hserving : p'.master.serving = dropFirst p.master.serving) : Calm l p' := by
  intro j hj
  rw [hserving, mem_dropFirst] at hj
  refine (hothers j hj.1).resolve_left fun heq => hj.2 (heq ▸ first_eq_some.mpr ⟨hk, ?_⟩)
  intro i hi
  rcases hothers i hi with rfl | hlarge
  · exact le_refl i
  · exact Fin.le_def.mpr (by omega)

/-- One step of a handler that settles. -/
theorem Settles.step (h : Settles l p (x :: rest)) :
    Settles l (p.after (stepWrites [x])) rest := by
  rw [Settles, stepWrites_cons] at h
  have hone : stepWrites [x] = [] ∨ ∃ w, stepWrites [x] = [w] := by
    cases x with
    | outb port value => exact .inr ⟨_, rfl⟩
    | acquire | release | vga | tick => exact .inl rfl
  rcases hone with hnone | ⟨w, hw⟩
  · rw [hnone] at h ⊢
    exact h
  · rw [hw] at h ⊢
    rcases h with ⟨hcalm, heois⟩ | ⟨hsingle, k, hk, hurgent, hothers⟩
    · obtain ⟨hhead, htail⟩ := List.forall_mem_cons.mp heois
      refine .inl ⟨?_, htail⟩
      rcases hhead with rfl | rfl
      · exact hcalm.dropFirst rfl
      · exact hcalm
    · obtain ⟨rfl, hnil⟩ := List.cons.inj hsingle
      refine .inl ⟨calm_of_settling hk hurgent hothers rfl, fun w hw => ?_⟩
      rw [show stepWrites rest = [] from hnil] at hw
      cases hw

/-- The end of a handler that settles. -/
theorem Settles.done (h : Settles l p []) : Calm l p := by
  rcases h with ⟨hcalm, -⟩ | ⟨hsingle, -⟩
  · exact hcalm
  · cases hsingle

theorem Settles.eois (h : Settles l p steps) :
    ∀ w ∈ stepWrites steps, w = eoiMaster ∨ w = eoiSlave := by
  rcases h with ⟨-, heois⟩ | ⟨hsingle, -⟩
  · exact heois
  · intro w hw
    rw [hsingle] at hw
    exact .inl (List.mem_singleton.mp hw)

/-- The line of the master that a vector comes in on. -/
def masterLine (v : UInt8) : Nat := if v < 40 then v.toNat - 32 else 2

/-- Neither the timer nor the keyboard. -/
def isOther (v : UInt8) : Bool := 34 ≤ v

/-- A vector with the generic handler, on line `k` of the master. -/
structure OtherVector (v : UInt8) (k : Fin 8) : Prop where
  line : 2 ≤ k.val
  other : isOther v = true
  master : masterLine v = k.val
  handler : handlerOf v.toUInt32.toNat = .unhandled

theorem otherVector_master : ∀ k : Fin 8, 2 ≤ k.val → OtherVector (0x20 + UInt8.ofNat k.val) k := by
  intro k hk
  have hvector : ∀ k : Fin 8, 2 ≤ k.val → isOther (0x20 + UInt8.ofNat k.val) = true ∧
      masterLine (0x20 + UInt8.ofNat k.val) = k.val ∧
      handlerOf (0x20 + UInt8.ofNat k.val).toUInt32.toNat = .unhandled := by decide
  obtain ⟨hother, hmaster, hhandler⟩ := hvector k hk
  exact ⟨hk, hother, hmaster, hhandler⟩

theorem otherVector_slave : ∀ j : Fin 8, OtherVector (0x28 + UInt8.ofNat j.val) 2 := by
  intro j
  have hvector : ∀ j : Fin 8, isOther (0x28 + UInt8.ofNat j.val) = true ∧
      masterLine (0x28 + UInt8.ofNat j.val) = 2 ∧
      handlerOf (0x28 + UInt8.ofNat j.val).toUInt32.toNat = .unhandled := by decide
  obtain ⟨hother, hmaster, hhandler⟩ := hvector j
  exact ⟨le_refl 2, hother, hmaster, hhandler⟩

/-- What a controller that takes a line has in service. -/
theorem Cascade.SetUp.serving_wired_serve (h : p.SetUp) (k : Fin 8) :
    (p.wired.serve k).serving = insert k p.master.serving := by
  rw [h.wired_setUp.serve]
  rfl

/-- The two most urgent lines of the master, and their vectors. -/
theorem urgent_line {k : Fin 8} (hk : k.val < 2) : k = 0 ∨ k = 1 := by
  rcases Nat.lt_or_ge k.val 1 with h0 | h1
  · exact .inl (Fin.ext (show k.val = 0 by omega))
  · exact .inr (Fin.ext (show k.val = 1 by omega))

/-- **An interrupt that is taken**: its line of the master, and its vector. -/
theorem Cascade.SetUp.take_cases (h : p.SetUp) (hack : p.acknowledge = some (v, p')) :
    ∃ k : Fin 8, p.wired.request = some k ∧
      p'.master.serving = Insert.insert k p.master.serving ∧
      (k = 0 ∧ v = 32 ∨ k = 1 ∧ v = 33 ∨ OtherVector v k) := by
  obtain ⟨k, -, hrequest, rfl, rfl⟩ | ⟨j, hrequest, -, rfl, rfl⟩ := h.acknowledge_cases hack
  · refine ⟨k, hrequest, h.serving_wired_serve k, ?_⟩
    rcases Nat.lt_or_ge k.val 2 with hk | hk
    · rcases urgent_line hk with rfl | rfl
      · exact .inl ⟨rfl, rfl⟩
      · exact .inr (.inl ⟨rfl, rfl⟩)
    · exact .inr (.inr (otherVector_master k hk))
  · exact ⟨2, hrequest, h.serving_wired_serve 2, .inr (.inr (otherVector_slave j))⟩

/-- A handler settles when no line before `l` is in service. -/
theorem Calm.settles (h : Calm l p)
    (hacts : handlerActs table vector errCode i ticks = some acts) :
    Settles l p (acts.flatMap Act.micros) := by
  refine .inl ⟨h, fun w hw => ?_⟩
  rw [stepWrites_micros, (handlerActs_serves hacts).writes] at hw
  exact Handler.mem_eois hw

/-- A line with a handler that ends its interrupt. -/
theorem settles_urgent {k : Fin 8} (hcalm : Calm l p) (hk : k.val < l)
    (hserving : p'.master.serving = insert k p.master.serving)
    (hwrites : stepWrites steps = [eoiMaster]) : Settles l p' steps := by
  refine .inr ⟨hwrites, k, ?_, hk, fun j hj => ?_⟩
  · rw [hserving]
    exact Finset.mem_insert_self k _
  · rw [hserving, Finset.mem_insert] at hj
    exact hj.imp_right (hcalm j)

theorem Calm.insert {k : Fin 8} (hcalm : Calm l p) (hk : l ≤ k.val)
    (hserving : p'.master.serving = insert k p.master.serving) : Calm l p' := by
  intro j hj
  rw [hserving, Finset.mem_insert] at hj
  rcases hj with rfl | hj
  · exact hk
  · exact hcalm j hj

/-- **The handler of an interrupt that was taken** settles, if the keyboard's has been
registered where its line is to be kept free. -/
theorem settles_of_take (h : p.SetUp) (hcalm : Calm l p) (htable : Tabled table)
    (hl : l ≤ 2) (hkey : 1 < l → v = 33 → table 33 = some .keyboard)
    (hack : p.acknowledge = some (v, p'))
    (hacts : handlerActs table v.toUInt32 0 i ticks = some acts) :
    Settles l p' (acts.flatMap Act.micros) := by
  obtain ⟨k, -, hserving, hvector⟩ := h.take_cases hack
  rcases Nat.lt_or_ge k.val l with hk | hk
  · refine settles_urgent hcalm hk hserving ?_
    have hserves := (handlerActs_serves hacts).writes
    rw [stepWrites_micros, hserves]
    rcases hvector with ⟨-, rfl⟩ | ⟨rfl, rfl⟩ | hother
    · change ((table 32).getD .unhandled).eois _ = _
      rw [htable.other 32 (by decide) (by decide)]
      rfl
    · change ((table 33).getD .unhandled).eois _ = _
      rw [hkey hk rfl]
      rfl
    · have := hother.line
      omega
  · exact (hcalm.insert hk hserving).settles hacts

/-! ## One event -/

/-- What an event that is not the business of the controllers leaves as it was. -/
structure SameService (p p' : Cascade) : Prop where
  setUp : p.SetUp → p'.SetUp
  master : p'.master.serving = p.master.serving
  slave : p'.slave.serving = p.slave.serving

theorem sameService_raise (p : Cascade) (n : Fin 16) : SameService p (p.raise n) := by
  unfold Cascade.raise
  split_ifs
  · exact ⟨fun h => ⟨h.master.with_lines, h.slave⟩, rfl, rfl⟩
  · exact ⟨fun h => ⟨h.master, h.slave.with_lines⟩, rfl, rfl⟩

theorem sameService_lower (p : Cascade) (n : Fin 16) : SameService p (p.lower n) := by
  unfold Cascade.lower
  split_ifs
  · exact ⟨fun h => ⟨h.master.with_lines, h.slave⟩, rfl, rfl⟩
  · exact ⟨fun h => ⟨h.master, h.slave.with_lines⟩, rfl, rfl⟩

/-- The main line may change the masks. -/
theorem sameService_main (h : p.SetUp) (hmain : MainMicro x) :
    SameService p (p.after (stepWrites [x])) := by
  cases x with
  | acquire | release | vga => exact ⟨id, rfl, rfl⟩
  | tick => exact hmain.elim
  | outb port value =>
    change SameService p (p.write ⟨port, value⟩)
    rw [Cascade.write, if_neg hmain.1]
    split_ifs with hdata1 hcmd2 hdata2
    · rw [h.master.data]
      exact ⟨fun h => ⟨h.master.with_lines, h.slave⟩, rfl, rfl⟩
    · exact absurd hcmd2 hmain.2
    · rw [h.slave.data]
      exact ⟨fun h => ⟨h.master, h.slave.with_lines⟩, rfl, rfl⟩
    · exact ⟨id, rfl, rfl⟩

theorem SameService.settles (h : SameService p p') (hs : Settles l p steps) :
    Settles l p' steps := by
  rw [Settles, Calm, h.master]
  exact hs

theorem SameService.calm (h : SameService p p') (hs : Calm l p) : Calm l p' := by
  rw [Calm, h.master]
  exact hs

theorem Cascade.SetUp.after_eois {ws : List PortWrite} (h : p.SetUp)
    (hws : ∀ w ∈ ws, w = eoiMaster ∨ w = eoiSlave) : (p.after ws).SetUp := by
  induction ws generalizing p with
  | nil => exact h
  | cons w ws ih =>
    obtain ⟨hw, hws⟩ := List.forall_mem_cons.mp hws
    rw [Cascade.after_cons]
    refine ih ?_ hws
    rcases hw with rfl | rfl
    · exact ⟨h.master.with_lines, h.slave⟩
    · exact ⟨h.master, h.slave.with_lines⟩

/-- The steps of a call of the main line. -/
theorem MainAct.micros (h : MainAct a) : ∀ x ∈ a.micros, MainMicro x := by
  intro x hx
  cases a with
  | tick => exact h.elim
  | outb port value =>
    obtain rfl := List.mem_singleton.mp hx
    exact h
  | vga call =>
    rw [Act.micros, VgaCall.micros] at hx
    rcases List.mem_cons.mp hx with rfl | hx
    · trivial
    rcases List.mem_append.mp hx with hx | hx
    · obtain ⟨y, -, rfl⟩ := List.mem_map.mp hx
      trivial
    · obtain rfl := List.mem_singleton.mp hx
      trivial

theorem some_ne_idle {P : Prop} (hsome : some steps = none) : P :=
  absurd hsome (Option.some_ne_none _)

/-- **Every event keeps the invariant.** -/
theorem IrqStep.delivers (h : IrqStep s e t) (hs : Delivers l s) (hl : l ≤ 2)
    (hkey : 1 < l → ∀ i, e = .take 33 i → s.table 33 = some .keyboard) : Delivers l t := by
  have howner := h.lockOwner hs.owner
  cases h with
  | raise n =>
    have hsame := sameService_raise s.pc.pics n
    exact ⟨hsame.setUp hs.setUp, howner, hs.table, hs.main, fun hidle => hsame.calm (hs.calm hidle),
      fun steps hbusy => hsame.settles (hs.settles steps hbusy)⟩
  | lower n =>
    have hsame := sameService_lower s.pc.pics n
    exact ⟨hsame.setUp hs.setUp, howner, hs.table, hs.main, fun hidle => hsame.calm (hs.calm hidle),
      fun steps hbusy => hsame.settles (hs.settles steps hbusy)⟩
  | @take v p i acts hidle hack hacts =>
    refine ⟨(hs.setUp.acknowledge hack).1, howner, hs.table, hs.main, some_ne_idle,
      fun steps hsome => ?_⟩
    obtain rfl := Option.some.inj hsome
    exact settles_of_take hs.setUp (hs.calm hidle) hs.table hl
      (fun hl hv => hkey hl i (hv ▸ rfl)) hack hacts
  | spurious hidle hacts =>
    refine ⟨hs.setUp, howner, hs.table, hs.main, some_ne_idle, fun steps hsome => ?_⟩
    obtain rfl := Option.some.inj hsome
    exact (hs.calm hidle).settles hacts
  | spuriousSlave hidle hacts =>
    have hserving : s.pc.pics.spuriousSlave.2.master.serving =
        insert 2 s.pc.pics.master.serving := by
      rw [Cascade.spuriousSlave, hs.setUp.master.serve]
    refine ⟨⟨hs.setUp.master.serve_setUp 2, hs.setUp.slave⟩, howner, hs.table, hs.main,
      some_ne_idle, fun steps hsome => ?_⟩
    obtain rfl := Option.some.inj hsome
    exact ((hs.calm hidle).insert hl hserving).settles hacts
  | exception hidle _ hacts =>
    refine ⟨hs.setUp, howner, hs.table, hs.main, some_ne_idle, fun steps hsome => ?_⟩
    obtain rfl := Option.some.inj hsome
    exact (hs.calm hidle).settles hacts
  | @handler x rest pc hbusy hrun =>
    have hpics := (Pc.step_pics hrun).1
    have hsettles := hs.settles _ hbusy
    have heois : ∀ w ∈ stepWrites [x], w = eoiMaster ∨ w = eoiSlave := fun w hw =>
      hsettles.eois w (stepWrites_cons x rest ▸ List.mem_append_left _ hw)
    refine ⟨hpics ▸ hs.setUp.after_eois heois, howner, hs.table, hs.main, some_ne_idle,
      fun steps hsome => ?_⟩
    obtain rfl := Option.some.inj hsome
    exact hpics ▸ hsettles.step
  | handlerSpins | mainSpins => exact hs
  | iret hdone =>
    exact ⟨hs.setUp, howner, hs.table, hs.main, fun _ => (hs.settles _ hdone).done,
      fun _ hsome => some_ne_idle hsome.symm⟩
  | call hidle hfree hmain =>
    exact ⟨hs.setUp, howner, hs.table, hmain.micros, hs.calm, hs.settles⟩
  | main hidle hbusy hrun =>
    have hpics := (Pc.step_pics hrun).1
    obtain ⟨hfirst, hrest⟩ := List.forall_mem_cons.mp (hbusy ▸ hs.main)
    have hsame := sameService_main hs.setUp hfirst
    refine ⟨hpics ▸ hsame.setUp hs.setUp, howner, hs.table, hrest,
      fun _ => hpics ▸ hsame.calm (hs.calm hidle), fun steps hbusy => ?_⟩
    exact some_ne_idle (hbusy.symm.trans hidle)
  | keyboardInit hidle hfree =>
    exact ⟨hs.setUp, howner, hs.table.keyboardInit, hs.main, hs.calm, hs.settles⟩

/-! ## Runs -/

/-- At the end of `idt_init`, when nothing has happened since `pic_init`. -/
def bootedIrq (m : Machine) (mask1 mask2 : UInt8) : IrqState where
  pc.pics := ⟨remapped 0x20 0x04 mask1, remapped 0x28 0x02 mask2⟩
  pc.machine := { m with locked := false }
  table := idtInit
  main := []
  handler := none

theorem tabled_bootedIrq (m : Machine) (mask1 mask2 : UInt8) :
    Tabled (bootedIrq m mask1 mask2).table := by
  simp only [bootedIrq]
  exact tabled_idtInit

theorem delivers_bootedIrq (m : Machine) (mask1 mask2 : UInt8) :
    Delivers l (bootedIrq m mask1 mask2) where
  setUp := ⟨remapped_setUp _ _ _, remapped_setUp _ _ _⟩
  owner := LockOwner.boot m
  table := tabled_bootedIrq m mask1 mask2
  main := fun _ hx => absurd hx List.not_mem_nil
  calm := fun _ k hk => absurd hk (Finset.notMem_empty k)
  settles := fun _ hsome => some_ne_idle hsome.symm

theorem Run.delivers (h : Run IrqStep s events t) (hs : Delivers 1 s) : Delivers 1 t :=
  h.invariant (Delivers 1) hs fun _ _ _ hs hstep =>
    hstep.delivers hs (by decide) fun hlt => absurd hlt (by decide)

/-- **A handler comes to its end**, unless it waits for the main line. -/
theorem handler_ends (hs : Delivers l s) (hl : l ≤ 2) (hfree : ¬ s.WaitsForMain)
    (hbusy : s.handler = some steps) :
    ∃ later t, (∀ e ∈ later, e = .handler ∨ e = .iret) ∧ Run IrqStep s later t ∧
      Delivers l t ∧ t.handler = none ∧ t.main = s.main ∧
        t.pc.pics = s.pc.pics.after (stepWrites steps) := by
  induction steps generalizing s with
  | nil =>
    have hiret : IrqStep s .iret { s with handler := none } := .iret hbusy
    exact ⟨[.iret], _, fun e he => .inr (List.mem_singleton.mp he), Run.snoc .nil hiret,
      hiret.delivers hs hl (fun _ i h => by cases h), rfl, rfl, rfl⟩
  | cons x rest ih =>
    obtain ⟨pc, hrun⟩ := hs.owner.step_returns hbusy hfree
    have hstep : IrqStep s .handler { s with pc := pc, handler := some rest } :=
      .handler hbusy hrun
    have hfree' : ¬ IrqState.WaitsForMain { s with pc := pc, handler := some rest } := by
      rintro ⟨hmain, steps, hbusy', hmem⟩
      obtain rfl := Option.some.inj hbusy'
      exact hfree ⟨hmain, _, hbusy, List.mem_cons_of_mem _ hmem⟩
    have hnext := hstep.delivers hs hl fun _ i h => by cases h
    obtain ⟨later, t, hlater, hrest, ht, hidle, hmain, hpics⟩ := ih hnext hfree' rfl
    refine ⟨[.handler] ++ later, t, fun e he => ?_, (Run.snoc .nil hstep).append hrest, ht, hidle,
      hmain, ?_⟩
    · rcases List.mem_append.mp he with he | he
      · exact .inl (List.mem_singleton.mp he)
      · exact hlater e he
    · rw [hpics, (Pc.step_pics hrun).1, ← Cascade.after_append, ← stepWrites_cons]

/-- **The two most urgent lines get through** whatever else is in service. -/
theorem Calm.acknowledge {n : Fin 16} (hsetUp : p.SetUp) (hcalm : Calm (n.val + 1) p)
    (hurgent : n = 0 ∨ n = 1 ∧ ¬(0 ∈ p.raised ∧ 0 ∈ p.enabled)) (hraised : n ∈ p.raised)
    (henabled : n ∈ p.enabled) : ∃ p', p.acknowledge = some (32 + UInt8.ofNat n.val, p') := by
  have hside : ∀ n : Fin 16, n.val < 2 → p.controllerOf n = p.master := fun n hn =>
    if_pos (by omega)
  have hn : n.val < 2 := by
    rcases hurgent with rfl | ⟨rfl, -⟩
    · decide
    · decide
  -- on the master's side, these lines are the same whether or not the slave drives line 2
  have hwired : ∀ k : Fin 8, k.val < 2 → (k ∈ p.wired.raised ↔ k ∈ p.master.raised) := by
    intro k hk
    have hne : k ≠ 2 := by
      rintro rfl
      exact absurd hk (by decide)
    unfold Cascade.wired
    dsimp only
    split_ifs
    · rw [Finset.mem_insert, or_iff_right hne]
    · rw [Finset.mem_erase, and_iff_right hne]
  have hline : ∀ n : Fin 16, n.val < 2 → (n ∈ p.raised ↔ Fin.ofNat 8 n.val ∈ p.master.raised) ∧
      (n ∈ p.enabled ↔ Fin.ofNat 8 n.val ∈ p.master.enabled) := by
    intro n hn
    rw [Cascade.raised, Cascade.enabled, Finset.mem_filter, Finset.mem_filter, hside n hn,
      and_iff_right (Finset.mem_univ n), and_iff_right (Finset.mem_univ n)]
    exact ⟨Iff.rfl, Iff.rfl⟩
  have hval : (Fin.ofNat 8 n.val).val = n.val := Nat.mod_eq_of_lt (by omega)
  have hrequest : p.wired.request = some (Fin.ofNat 8 n.val) := by
    refine Controller.request_eq_some.mpr ⟨hsetUp.wired_setUp.next, ?_, ?_, ?_, ?_⟩
    · exact (hwired _ (by omega)).mpr ((hline n hn).1.mp hraised)
    · exact (hline n hn).2.mp henabled
    · intro j hj
      have hlarge := hcalm j hj
      exact Fin.lt_def.mpr (by omega)
    · intro j hj hj'
      by_contra hlt
      have hlt' : j.val < n.val := by
        have := Fin.lt_def.mp (not_le.mp hlt)
        omega
      -- only line 0 is before line 1
      have hzero : j = Fin.ofNat 8 (0 : Fin 16).val := Fin.ext (show j.val = 0 by omega)
      rcases hurgent with rfl | ⟨-, hquiet⟩
      · exact absurd hlt' (Nat.not_lt_zero _)
      · rw [hzero] at hj hj'
        exact hquiet ⟨(hline 0 (by decide)).1.mpr ((hwired _ (by decide)).mp hj),
          (hline 0 (by decide)).2.mpr hj'⟩
  have htwo : Fin.ofNat 8 n.val ≠ 2 := by
    intro heq
    have hval' := congrArg Fin.val heq
    rw [hval] at hval'
    have : n.val = 2 := hval'
    omega
  rw [Cascade.acknowledge, hrequest]
  dsimp only
  rw [if_neg fun h => htwo h.1, Controller.vector, hsetUp.master.offset, hval]
  exact ⟨_, rfl⟩

/-- Nothing in the registers, and no key. -/
def idleInterrupted : Interrupted := ⟨idleCpu, fun _ => 0, 0⟩

/-- A line with the generic handler is taken, and the handler is at its beginning; it will send
nothing. -/
theorem exists_take_unhandled {v : UInt8} (hidle : s.handler = none) (hs : Tabled s.table)
    (hother : handlerOf v.toUInt32.toNat = .unhandled ∧ v ≠ 33)
    (hack : s.pc.pics.acknowledge = some (v, p)) :
    ∃ t steps, IrqStep s (.take v idleInterrupted) t ∧ t.pc.pics = p ∧ t.main = s.main ∧
      t.handler = some steps ∧ stepWrites steps = [] := by
  have hlt : v.toUInt32.toNat < 256 := v.toNat_lt
  have hne : v.toUInt32.toNat ≠ 33 := fun heq => hother.2 (UInt8.toNat.inj heq)
  have htable := (hs.other _ hlt hne).trans (congrArg some hother.1)
  obtain ⟨call, calls, hacts⟩ := isrUnhandledInterrupt_eq (readRegisters
    (enterInterrupt idleInterrupted.cpu v.toUInt32 0 idleInterrupted.mem).mem
    (enterInterrupt idleInterrupted.cpu v.toUInt32 0 idleInterrupted.mem).esp) s.pc.machine.ticks
  have hacts := (handlerActs_eq hlt htable 0 idleInterrupted s.pc.machine.ticks).trans hacts
  refine ⟨_, _, .take hidle hack hacts, rfl, rfl, rfl, ?_⟩
  rw [stepWrites_micros, (handlerActs_serves hacts).writes, htable]
  rfl

/-- It is served, and stays in service. -/
theorem exists_served_unhandled {v : UInt8} (hs : Delivers 1 s) (hidle : s.handler = none)
    (hmain : s.main = []) (hother : handlerOf v.toUInt32.toNat = .unhandled ∧ v ≠ 33)
    (hack : s.pc.pics.acknowledge = some (v, p)) :
    ∃ steps t, (∀ e ∈ steps, e = .handler ∨ e = .iret) ∧
      Run IrqStep s ([.take v idleInterrupted] ++ steps) t ∧ Delivers 1 t ∧ t.handler = none ∧
        t.main = [] ∧ t.pc.pics = p := by
  obtain ⟨u, steps, htake, hpics, humain, hbusy, hnone⟩ :=
    exists_take_unhandled hidle hs.table hother hack
  have htaken := Run.snoc .nil htake
  have hfree : ¬ u.WaitsForMain := by
    rintro ⟨hcritical, -⟩
    rw [humain, hmain] at hcritical
    cases hcritical
  obtain ⟨later, t, hlater, hrun, ht, hidle', htmain, hafter⟩ :=
    handler_ends (htaken.delivers hs) (by decide) hfree hbusy
  refine ⟨later, t, hlater, htaken.append hrun, ht, hidle', htmain.trans (humain.trans hmain), ?_⟩
  rw [hafter, hnone, hpics]
  rfl

/-- Lines of the master in service, and none of the slave. -/
def servingPics (lines : Finset (Fin 8)) : Cascade :=
  ⟨{ remapped 0x20 0x04 0 with serving := lines }, remapped 0x28 0x02 0⟩

end OsKernel
