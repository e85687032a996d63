import OsKernel.InterruptEoi
import OsKernel.PrintfFormat

/-! # The time in front of a log line

`print_timestamp` casts the 64-bit tick counter to `int`.  A run is any sequence of timer
interrupts and log calls; it keeps the lines that were printed, each with the counter at
the time.  The number in front of a line is the counter as long as the counter is below
2^31.  From there on it is another number, and at first a negative one.
-/
namespace OsKernel

/-- The log functions. -/
inductive LogLevel
  | info
  | warn
  | error
  deriving DecidableEq, Repr

/-- The console calls of a log function. -/
def LogLevel.calls : LogLevel → UInt64 → List UInt8 → List Arg → Option (List VgaCall)
  | .info => logInfo
  | .warn => logWarn
  | .error => logError

/-- A line as it was printed, with the tick counter at the time. -/
structure LogLine where
  counter : UInt64
  printed : List UInt8

/-- The characters between the brackets at the start of a line. -/
def bracketed : List UInt8 → Option (List UInt8)
  | [] => none
  | c :: rest => if c = 0x5B then some (rest.takeWhile (· ≠ 0x5D)) else none

/-- **The number in brackets is the tick counter**, in decimal. -/
def LogLine.Shows (line : LogLine) : Prop :=
  bracketed line.printed = some (decimalText line.counter.toNat)

/-- The number in brackets. -/
def LogLine.time (line : LogLine) : Option Int := (bracketed line.printed).bind parseDecimal

/-- The machine and the lines it has printed. -/
structure LogState where
  machine : Machine
  lines : List LogLine

/-- A timer interrupt or a call of a log function. -/
inductive LogOp
  | timer
  | log (level : LogLevel) (fmt : List UInt8) (args : List Arg)

/-- One event. -/
inductive LogStep (s : LogState) : LogOp → LogState → Prop
  | timer {m : Machine} (h : runActs irq0TimerHandler s.machine = some m) :
      LogStep s .timer ⟨m, s.lines⟩
  | log {m : Machine} {level : LogLevel} {fmt : List UInt8} {args : List Arg}
      {calls : List VgaCall} (hcalls : level.calls s.machine.ticks fmt args = some calls)
      (hrun : runCalls calls s.machine = some m) :
      LogStep s (.log level fmt args)
        ⟨m, s.lines ++ [⟨s.machine.ticks, calls.flatMap VgaCall.characters⟩]⟩

/-- **The counter still fits**: into an `int` when a line is printed, and into 64 bits when
it is incremented. -/
def LogState.InTime (s : LogState) : LogOp → Prop
  | .timer => s.machine.ticks.toNat + 1 < 2 ^ 64
  | .log _ _ _ => s.machine.ticks.toNat < 2 ^ 31

/-- One event while the counter still fits. -/
def InTimeStep (s : LogState) (op : LogOp) (s' : LogState) : Prop := LogStep s op s' ∧ s.InTime op

variable {s s' : LogState} {ops : List LogOp} {op : LogOp} {m m' : Machine} {ticks : UInt64}
  {calls : List VgaCall} {line : LogLine}

/-! ## The number in brackets -/

/-- The value of the argument of `%d`. -/
def shownTicks (ticks : UInt64) : Int := ticks.toUInt32.toInt32.toInt

/-- The characters of `print_timestamp`. -/
def stampText (ticks : UInt64) : List UInt8 :=
  0x5B :: (decimalText (shownTicks ticks) ++ [0x5D, 0x20])

theorem shownTicks_eq_iff (ticks : UInt64) :
    shownTicks ticks = ticks.toNat ↔ ticks.toNat < 2 ^ 31 := by
  have hlow : ticks.toUInt32.toNat = ticks.toNat % 2 ^ 32 := UInt64.toNat_toUInt32 ticks
  have hlt := ticks.toUInt32.toNat_lt
  rw [shownTicks]
  by_cases hsmall : ticks.toUInt32.toNat < 2 ^ 31
  · rw [signed_of_lt hsmall]
    omega
  · rw [signed_of_ge (Nat.not_lt.mp hsmall)]
    omega

theorem printTimestamp_eq (ticks : UInt64) :
    printTimestamp ticks = some ((stampText ticks).map .putChar) := by
  have hopen : printf (cString "[") [] = some [.putChar 0x5B] := by decide
  have hclose : printf (cString "] ") [] = some [.putChar 0x5D, .putChar 0x20] := by decide
  have hnumber : printf (cString "%d") [.int ticks.toUInt32] =
      some (printNumber ticks.toUInt32 ++ []) := vprintf_tokens [.directive (.d _)] []
  rw [printTimestamp, hopen, hnumber, hclose, printNumber_eq, stampText]
  simp [shownTicks]

/-- A log line begins with the time. -/
theorem logLine_eq {tag : String} {fmt : List UInt8} {args : List Arg}
    (h : logLine tag ticks fmt args = some calls) :
    ∃ rest, calls.flatMap VgaCall.characters = stampText ticks ++ rest := by
  rw [logLine, printTimestamp_eq] at h
  simp only [Option.bind_eq_bind, Option.bind_some, Option.bind_eq_some_iff] at h
  obtain ⟨tag', -, text, -, reset, -, heq⟩ := h
  obtain rfl := Option.some.inj heq
  refine ⟨(tag' ++ (text ++ reset)).flatMap VgaCall.characters, ?_⟩
  rw [List.append_assoc, List.append_assoc, List.flatMap_append, characters_putChars]

theorem LogLevel.calls_eq {level : LogLevel} {fmt : List UInt8} {args : List Arg}
    (h : level.calls ticks fmt args = some calls) :
    ∃ rest, calls.flatMap VgaCall.characters = stampText ticks ++ rest := by
  cases level with
  | info => exact logLine_eq h
  | warn => exact logLine_eq h
  | error => exact logLine_eq h

theorem bracketed_stampText (ticks : UInt64) (rest : List UInt8) :
    bracketed (stampText ticks ++ rest) = some (decimalText (shownTicks ticks)) := by
  have hinside : ∀ c ∈ decimalText (shownTicks ticks), decide (c ≠ 0x5D) = true := by
    have hchar : ∀ d < 10, decimalChar d ≠ 0x5D := by decide
    intro c hc
    rcases mem_decimalText hc with rfl | ⟨d, hd, rfl⟩
    · decide
    · exact decide_eq_true (hchar d hd)
  rw [stampText, List.cons_append, bracketed, if_pos rfl, List.append_assoc,
    List.takeWhile_append_of_pos hinside]
  exact congrArg some (List.append_nil _)

theorem decimalText_injective : Function.Injective decimalText := by
  intro v w h
  have hparse := congrArg parseDecimal h
  rw [parseDecimal_decimalText, parseDecimal_decimalText] at hparse
  exact Option.some.inj hparse

/-- The line begins with what `print_timestamp` prints. -/
def LogLine.Stamped (line : LogLine) : Prop :=
  bracketed line.printed = some (decimalText (shownTicks line.counter))

/-- **When a line shows the counter.** -/
theorem LogLine.Stamped.shows_iff (h : line.Stamped) :
    line.Shows ↔ line.counter.toNat < 2 ^ 31 := by
  rw [LogLine.Shows, h, Option.some_inj, decimalText_injective.eq_iff, shownTicks_eq_iff]

theorem LogLine.Shows.time_eq (h : line.Shows) : line.time = some (line.counter.toNat : Int) := by
  rw [LogLine.time, h, Option.bind_some, parseDecimal_decimalText]

/-! ## Runs -/

theorem runCalls_ticks (h : runCalls calls m = some m') : m'.ticks = m.ticks := by
  have hacts : runActs (calls.map .vga) m = some m' := by
    rw [runActs, List.foldlM_map]
    exact h
  exact (runActs_vga_consoleOnly hacts).ticks

theorem LogStep.stamped (h : LogStep s op s') (hlines : ∀ line ∈ s.lines, line.Stamped) :
    ∀ line ∈ s'.lines, line.Stamped := by
  cases h with
  | timer => exact hlines
  | log hcalls =>
    refine List.forall_mem_append.mpr ⟨hlines, List.forall_mem_singleton.mpr ?_⟩
    obtain ⟨rest, hprinted⟩ := LogLevel.calls_eq hcalls
    rw [LogLine.Stamped, hprinted]
    exact bracketed_stampText _ rest

/-- The lines are in the order of the counter, and none is ahead of it. -/
structure InOrder (s : LogState) : Prop where
  sorted : s.lines.Pairwise fun a b => a.counter.toNat ≤ b.counter.toNat
  past : ∀ line ∈ s.lines, line.counter.toNat ≤ s.machine.ticks.toNat
  fits : ∀ line ∈ s.lines, line.counter.toNat < 2 ^ 31

theorem InOrder.step (h : InOrder s) (hstep : InTimeStep s op s') : InOrder s' := by
  obtain ⟨hstep, htime⟩ := hstep
  cases hstep with
  | timer htimer =>
    obtain rfl := Option.some.inj htimer
    refine ⟨h.sorted, fun line hline => (h.past line hline).trans ?_, h.fits⟩
    have hnowrap : (s.machine.ticks + 1).toNat = s.machine.ticks.toNat + 1 := by
      rw [UInt64.toNat_add]
      exact Nat.mod_eq_of_lt htime
    exact (Nat.le_succ _).trans hnowrap.ge
  | log hcalls hrun =>
    have hticks := runCalls_ticks hrun
    refine ⟨List.pairwise_append.mpr ⟨h.sorted, List.pairwise_singleton _ _, ?_⟩, ?_, ?_⟩
    · intro line hline last hlast
      obtain rfl := List.mem_singleton.mp hlast
      exact h.past line hline
    · rw [hticks]
      exact List.forall_mem_append.mpr ⟨h.past, List.forall_mem_singleton.mpr le_rfl⟩
    · exact List.forall_mem_append.mpr ⟨h.fits, List.forall_mem_singleton.mpr htime⟩

theorem Run.of_inTime (h : Run InTimeStep s ops s') : Run LogStep s ops s' := by
  induction h with
  | nil => exact .nil
  | snoc _ hop ih => exact ih.snoc hop.1

/-- A log call whose format is defined returns when the console is not locked. -/
theorem exists_log (level : LogLevel) {fmt : List UInt8} {args : List Arg}
    (hlock : s.machine.locked = false)
    (hcalls : level.calls s.machine.ticks fmt args = some calls) :
    ∃ m line, LogStep s (.log level fmt args) ⟨m, s.lines ++ [line]⟩ ∧ m.locked = false ∧
      m.ticks = s.machine.ticks ∧ line.time = some (shownTicks s.machine.ticks) := by
  obtain ⟨m, hacts⟩ := runActs_vga_returns calls hlock
  have honly := runActs_vga_consoleOnly hacts
  rw [runActs, List.foldlM_map] at hacts
  obtain ⟨rest, hprinted⟩ := LogLevel.calls_eq hcalls
  refine ⟨m, _, .log hcalls hacts, honly.locked.trans hlock, honly.ticks, ?_⟩
  rw [LogLine.time, hprinted, bracketed_stampText, Option.bind_some, parseDecimal_decimalText]

theorem exists_timer (s : LogState) :
    ∃ m, LogStep s .timer ⟨m, s.lines⟩ ∧ m.locked = s.machine.locked ∧
      m.ticks = s.machine.ticks + 1 :=
  ⟨_, .timer rfl, rfl, rfl⟩

theorem run_timers (s : LogState) (n : Nat) :
    ∃ m, Run LogStep s (List.replicate n .timer) ⟨m, s.lines⟩ ∧
      m.locked = s.machine.locked ∧ m.ticks = s.machine.ticks + UInt64.ofNat n := by
  induction n with
  | zero => exact ⟨s.machine, .nil, rfl, (UInt64.add_zero _).symm⟩
  | succ n ih =>
    obtain ⟨m, hrun, hlock, hticks⟩ := ih
    obtain ⟨m', hstep, hlock', hticks'⟩ := exists_timer ⟨m, s.lines⟩
    rw [List.replicate_succ']
    refine ⟨m', hrun.snoc hstep, hlock'.trans hlock, ?_⟩
    rw [hticks', hticks, UInt64.ofNat_add, UInt64.add_assoc]
    rfl

/-- Two lines with a timer interrupt between them. -/
theorem exists_log_timer_log (hlock : s.machine.locked = false) :
    ∃ s₁ s₂ s₃, LogStep s (.log .info (cString "on") []) s₁ ∧ LogStep s₁ .timer s₂ ∧
      LogStep s₂ (.log .info (cString "off") []) s₃ ∧ s₁.machine.ticks = s.machine.ticks ∧
      s₂.machine.ticks = s.machine.ticks + 1 ∧
      s₃.lines.map LogLine.time = s.lines.map LogLine.time ++
        [some (shownTicks s.machine.ticks), some (shownTicks (s.machine.ticks + 1))] := by
  have hdefined : ∀ ticks, (∃ calls, logInfo ticks (cString "on") [] = some calls) ∧
      ∃ calls, logInfo ticks (cString "off") [] = some calls := fun _ => ⟨⟨_, rfl⟩, ⟨_, rfl⟩⟩
  obtain ⟨calls, hcalls⟩ := (hdefined s.machine.ticks).1
  obtain ⟨m₁, line, hstep₁, hlock₁, hticks₁, hline⟩ := exists_log .info hlock hcalls
  obtain ⟨m₂, hstep₂, hlock₂, hticks₂⟩ := exists_timer ⟨m₁, s.lines ++ [line]⟩
  obtain ⟨calls', hcalls'⟩ := (hdefined m₂.ticks).2
  obtain ⟨m₃, line', hstep₃, -, -, hline'⟩ :=
    exists_log (s := ⟨m₂, s.lines ++ [line]⟩) .info (hlock₂.trans hlock₁) hcalls'
  have hnow : m₂.ticks = s.machine.ticks + 1 := hticks₂.trans (congrArg (· + 1) hticks₁)
  refine ⟨_, _, _, hstep₁, hstep₂, hstep₃, hticks₁, hnow, ?_⟩
  dsimp only at hline' ⊢
  rw [List.append_assoc, List.map_append, List.singleton_append, List.map_cons, List.map_singleton,
    hline, hline', hnow]

/-- **When log timestamps tell the time.**  In every run of timer interrupts and log calls,
all lines show the tick counter if and only if each is printed while the counter is below
2^31.  In every run whose lines are all printed while it is, and whose interrupts do not
wrap the 64-bit counter, the lines show the counter and their times never decrease. -/
theorem log_times_iff (m : Machine) (ops : List LogOp) (s : LogState) :
    (Run LogStep ⟨m, []⟩ ops s →
      ((∀ line ∈ s.lines, line.Shows) ↔ ∀ line ∈ s.lines, line.counter.toNat < 2 ^ 31)) ∧
    (Run InTimeStep ⟨m, []⟩ ops s →
      (∀ line ∈ s.lines, line.Shows) ∧
      s.lines.Pairwise fun a b => ∃ t t' : Int, a.time = some t ∧ b.time = some t' ∧ t ≤ t') := by
  have hstamped : Run LogStep ⟨m, []⟩ ops s → ∀ line ∈ s.lines, line.Stamped := fun hrun =>
    Run.invariant (fun s => ∀ line ∈ s.lines, line.Stamped)
      (fun line hline => absurd hline List.not_mem_nil) (fun _ _ _ h hop => hop.stamped h) hrun
  refine ⟨fun hrun => ?_, fun hrun => ?_⟩
  · exact forall₂_congr fun line hline => (hstamped hrun line hline).shows_iff
  · have horder : InOrder s := Run.invariant InOrder
      ⟨.nil, fun _ h => absurd h List.not_mem_nil, fun _ h => absurd h List.not_mem_nil⟩
      (fun _ _ _ h hop => h.step hop) hrun
    have hshows : ∀ line ∈ s.lines, line.Shows := fun line hline =>
      (hstamped (Run.of_inTime hrun) line hline).shows_iff.mpr (horder.fits line hline)
    refine ⟨hshows, horder.sorted.imp_of_mem fun {a b} ha hb hle => ?_⟩
    exact ⟨_, _, (hshows a ha).time_eq, (hshows b hb).time_eq, Int.ofNat_le.mpr hle⟩

/-- Two lines of a kernel that has just started. -/
theorem log_times_short : ∃ s, Run LogStep ⟨freshMachine, []⟩
      [.log .info (cString "on") [], .timer, .log .info (cString "off") []] s ∧
    s.lines.map LogLine.time = [some 0, some 1] ∧ (∀ line ∈ s.lines, line.Shows) ∧
    s.lines.Pairwise fun a b => ∃ t t' : Int, a.time = some t ∧ b.time = some t' ∧ t ≤ t' := by
  obtain ⟨s₁, s₂, s₃, h₁, h₂, h₃, hticks₁, hticks₂, htimes⟩ :=
    exists_log_timer_log (s := ⟨freshMachine, []⟩) rfl
  have hearly₁ : (⟨freshMachine, []⟩ : LogState).InTime (.log .info (cString "on") []) := by
    rw [LogState.InTime]
    decide
  have hearly₂ : s₁.InTime .timer := by
    rw [LogState.InTime, hticks₁]
    decide
  have hearly₃ : s₂.InTime (.log .info (cString "off") []) := by
    rw [LogState.InTime, hticks₂]
    decide
  have hrun : Run InTimeStep ⟨freshMachine, []⟩ _ s₃ :=
    ((Run.nil.snoc ⟨h₁, hearly₁⟩).snoc ⟨h₂, hearly₂⟩).snoc ⟨h₃, hearly₃⟩
  exact ⟨s₃, Run.of_inTime hrun, htimes.trans (by decide), (log_times_iff _ _ _).2 hrun⟩

/-- After 2^31 - 1 interrupts one more turns the time back. -/
theorem log_times_backwards : ∃ s, Run LogStep ⟨freshMachine, []⟩
      (List.replicate (2 ^ 31 - 1) .timer ++
        [.log .info (cString "on") [], .timer, .log .info (cString "off") []]) s ∧
    s.lines.map LogLine.time = [some 2147483647, some (-2147483648)] := by
  obtain ⟨m, hrun, hlock, hticks⟩ := run_timers ⟨freshMachine, []⟩ (2 ^ 31 - 1)
  obtain ⟨s₁, s₂, s₃, h₁, h₂, h₃, -, -, htimes⟩ := exists_log_timer_log (s := ⟨m, []⟩) hlock
  have hshown : shownTicks (freshMachine.ticks + UInt64.ofNat (2 ^ 31 - 1)) = 2147483647 ∧
      shownTicks (freshMachine.ticks + UInt64.ofNat (2 ^ 31 - 1) + 1) = -2147483648 := by decide
  refine ⟨s₃, hrun.append (((Run.nil.snoc h₁).snoc h₂).snoc h₃), htimes.trans ?_⟩
  rw [hticks, hshown.1, hshown.2]
  rfl

end OsKernel
