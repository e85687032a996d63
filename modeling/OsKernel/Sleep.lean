import Mathlib.Tactic.Ring
import OsKernel.InterruptDelivery

/-! # Ticks and sleeping (`cpu/isr.c`, `time/time.c`, `kernel/kernel_main.c`)

The tick counter counts the timer's interrupts, whatever else happens.  `sleep_ms` reads it,
and halts the CPU between two looks at it.  The counter has 64 bits and is loaded in two
halves, with interrupts enabled.  If the upper half does not change between the two loads of
`start_ticks`, `sleep_ms` does not return early.  When the last tick comes between a look and
the `hlt` that follows, the CPU halts all the same and needs one more interrupt.
-/
namespace OsKernel

/-! ## Counting ticks -/

/-- The ticks that the running handler still has to count. -/
def pendingTicks (s : IrqState) : Nat :=
  match s.handler with
  | some steps => tickCount steps
  | none => 0

/-- The number of the timer's interrupts. -/
def timerInterrupts (events : List IrqEvent) : Nat := (takenVectors events).count 32

variable {s t : IrqState} {e : IrqEvent} {events : List IrqEvent} {acts : List Act}
  {vector errCode : UInt32} {i : Interrupted} {ticks : UInt64} {v : UInt8} {p : Cascade}
  {x : Micro} {table : HandlerTable}

/-- The handler of a vector counts a tick if it is the timer's. -/
theorem tickCount_handlerActs (hs : Tabled table) (hvector : vector.toNat < 256)
    (hacts : handlerActs table vector errCode i ticks = some acts) :
    tickCount (acts.flatMap Act.micros) = if vector.toNat = 32 then 1 else 0 := by
  obtain ⟨handler, htable, htimer, -⟩ := hs.handler hvector
  rw [tickCount_micros, (handlerActs_serves hacts).ticks, htable, Option.getD_some]
  split_ifs with h32
  · rw [htimer.mpr h32]
    rfl
  · unfold Handler.counts
    split
    · exact absurd (htimer.mp rfl) h32
    · rfl

/-- The counter, with the ticks that a handler still has to count. -/
def countedTicks (s : IrqState) : UInt64 := s.pc.machine.ticks + UInt64.ofNat (pendingTicks s)

theorem pendingTicks_of_idle (h : s.handler = none) : pendingTicks s = 0 := by
  rw [pendingTicks, h]

theorem countedTicks_of_idle (h : s.handler = none) : countedTicks s = s.pc.machine.ticks := by
  rw [countedTicks, pendingTicks_of_idle h]
  exact UInt64.add_zero _

/-- **One event**, seen from the counter. -/
theorem IrqStep.counts (h : IrqStep s e t) (hs : Delivers 1 s) :
    countedTicks t = countedTicks s + UInt64.ofNat (timerInterrupts [e]) := by
  have hnone : ∀ {s t : IrqState}, t.pc.machine.ticks = s.pc.machine.ticks →
      pendingTicks t = pendingTicks s → countedTicks t = countedTicks s + UInt64.ofNat 0 := by
    intro s t hticks hpending
    rw [countedTicks, countedTicks, hticks, hpending]
    exact (UInt64.add_zero _).symm
  cases h with
  | raise | lower | handlerSpins | mainSpins | call | keyboardInit => exact hnone rfl rfl
  | @take v p i acts hfree hack hacts =>
    have hlt : v.toUInt32.toNat < 256 := v.toNat_lt
    have hcount := tickCount_handlerActs hs.table hlt hacts
    have htimer : timerInterrupts [.take v i] = if v.toUInt32.toNat = 32 then 1 else 0 := by
      have hv : v = 32 ↔ v.toUInt32.toNat = 32 := UInt8.toNat_inj.symm
      change [v].count 32 = _
      simp only [List.count_singleton, beq_iff_eq, hv]
    rw [countedTicks_of_idle hfree, htimer, ← hcount]
    rfl
  | spurious hfree hacts =>
    rw [hs.setUp.spurious_vector.1] at hacts
    refine hnone rfl (Eq.trans ?_ (pendingTicks_of_idle hfree).symm)
    exact tickCount_handlerActs hs.table (by decide) hacts
  | spuriousSlave hfree hacts =>
    rw [hs.setUp.spurious_vector.2] at hacts
    refine hnone rfl (Eq.trans ?_ (pendingTicks_of_idle hfree).symm)
    exact tickCount_handlerActs hs.table (by decide) hacts
  | @exception vector _ _ _ hfree hvector hacts =>
    have hle : vector.toNat ≤ 21 := UInt32.le_iff_toNat_le.mp hvector.1
    refine hnone rfl (Eq.trans ?_ (pendingTicks_of_idle hfree).symm)
    refine (tickCount_handlerActs hs.table (by omega) hacts).trans (if_neg ?_)
    omega
  | @handler x rest pc hbusy hrun =>
    have hpending : pendingTicks s = tickCount [x] + tickCount rest := by
      rw [pendingTicks, hbusy]
      exact tickCount_append [x] rest
    rw [countedTicks, countedTicks, (Pc.step_pics hrun).2.1, hpending, UInt64.ofNat_add,
      UInt64.add_assoc]
    exact (UInt64.add_zero _).symm
  | iret hdone =>
    refine hnone rfl ?_
    rw [pendingTicks, pendingTicks, hdone]
    rfl
  | @main x rest pc hfree hbusy hrun =>
    have hcount : tickCount [x] = 0 := by
      cases x with
      | tick => exact (hs.main .tick (hbusy ▸ List.mem_cons_self)).elim
      | acquire | release | vga | outb => rfl
    refine hnone ?_ rfl
    rw [(Pc.step_pics hrun).2.1, hcount]
    exact UInt64.add_zero _

theorem timerInterrupts_append (events events' : List IrqEvent) :
    timerInterrupts (events ++ events') = timerInterrupts events + timerInterrupts events' := by
  rw [timerInterrupts, takenVectors, List.filterMap_append, List.count_append]
  rfl

/-- **Any events**, seen from the counter. -/
theorem Run.counts (h : Run IrqStep s events t) (hs : Delivers 1 s) :
    countedTicks t = countedTicks s + UInt64.ofNat (timerInterrupts events) := by
  induction h with
  | nil => exact (UInt64.add_zero _).symm
  | snoc hbefore hop ih =>
    rw [hop.counts (hbefore.delivers hs), ih, timerInterrupts_append, UInt64.ofNat_add,
      UInt64.add_assoc]

/-- The timer interrupts the idle machine, and its handler runs to the end. -/
theorem exists_timer_steps (m : Machine) : ∃ s₁ s₂ s₃ s₄ s₅,
    IrqStep (bootedIrq m 0xFE 0xFF) (.raise 0) s₁ ∧
    IrqStep s₁ (.take 32 idleInterrupted) s₂ ∧ IrqStep s₂ .handler s₃ ∧
    IrqStep s₃ .handler s₄ ∧ IrqStep s₄ .iret s₅ ∧ s₅.handler = none ∧ s₅.main = [] ∧
    s₅.pc.machine.ticks = m.ticks + 1 := by
  obtain ⟨s, hs⟩ : ∃ s, s = bootedIrq m 0xFE 0xFF := ⟨_, rfl⟩
  have htable : s.table (32 : UInt8).toUInt32.toNat = some .irq0Timer := by
    have h32 : (32 : UInt8).toUInt32.toNat = 32 := rfl
    rw [h32, hs]
    exact (tabled_bootedIrq m 0xFE 0xFF).other 32 (by decide) (by decide)
  have hack : (s.pc.pics.raise 0).acknowledge = some (32,
      ⟨{ remapped 0x20 0x04 0xFE with serving := {0} }, remapped 0x28 0x02 0xFF⟩) := by
    rw [hs]
    change (Cascade.raise ⟨remapped 0x20 0x04 0xFE, remapped 0x28 0x02 0xFF⟩ 0).acknowledge = _
    decide
  have hidle : s.handler = none ∧ s.main = [] ∧ s.pc.machine.ticks = m.ticks := by
    rw [hs]
    exact ⟨rfl, rfl, rfl⟩
  have hacts := handlerActs_eq (by decide) htable 0 idleInterrupted s.pc.machine.ticks
  rw [← hs, ← hidle.2.2]
  exact ⟨_, _, _, _, _, .raise 0, .take hidle.1 hack hacts, .handler rfl rfl, .handler rfl rfl,
    .iret rfl, rfl, hidle.2.1, rfl⟩

/-- **The counter counts the timer's interrupts.**  In every run from the end of `idt_init` on,
whatever devices, spurious interrupts, exceptions in the main line and the main line itself do,
whenever no handler is running the tick counter has grown by the number of interrupts of the
timer that the CPU has taken. -/
theorem ticks_count_timer (m : Machine) (mask1 mask2 : UInt8) (events : List IrqEvent)
    (s : IrqState) (hrun : Run IrqStep (bootedIrq m mask1 mask2) events s)
    (hidle : s.handler = none) :
    s.pc.machine.ticks = m.ticks + UInt64.ofNat (timerInterrupts events) := by
  have hcounted := hrun.counts (delivers_bootedIrq m mask1 mask2)
  rw [countedTicks_of_idle hidle] at hcounted
  exact hcounted.trans (congrArg (· + _) (countedTicks_of_idle rfl))

/-- The timer's interrupt, and nothing else. -/
theorem ticks_count_timer_once : ∃ s, Run IrqStep (bootedIrq freshMachine 0xFE 0xFF)
    [.raise 0, .take 32 idleInterrupted, .handler, .handler, .iret] s ∧
    s.pc.machine.ticks = freshMachine.ticks + UInt64.ofNat (timerInterrupts
      [.raise 0, .take 32 idleInterrupted, .handler, .handler, .iret]) := by
  obtain ⟨s₁, s₂, s₃, s₄, s₅, hraise, htake, htick, heoi, hiret, hidle, -⟩ :=
    exists_timer_steps freshMachine
  have hrun : Run IrqStep (bootedIrq freshMachine 0xFE 0xFF)
      [.raise 0, .take 32 idleInterrupted, .handler, .handler, .iret] s₅ :=
    ((((Run.nil.snoc hraise).snoc htake).snoc htick).snoc heoi).snoc hiret
  exact ⟨s₅, hrun, ticks_count_timer freshMachine 0xFE 0xFF _ s₅ hrun hidle⟩

/-! ## `sleep_ms` -/

/-- `(uint64_t)ms * pit_hz / 1000` -/
def sleepTicks (ms pitHz : UInt32) : UInt64 := ms.toUInt64 * pitHz.toUInt64 / 1000

/-- The halves of the counter. -/
def upperHalf (ticks : UInt64) : UInt32 := (ticks >>> 32).toUInt32
def lowerHalf (ticks : UInt64) : UInt32 := ticks.toUInt32

/-- What `time_get_ticks` returns, from the two halves it has loaded. -/
def joinHalves (upper lower : UInt32) : UInt64 := upper.toUInt64 * 4294967296 + lower.toUInt64

/-- Where `sleep_ms` is: in its loop without a timer, before the first or the second load of
`start_ticks`, before the first or the second load of a look at the counter, before the `hlt`,
halted, or back. -/
inductive SleepAt
  | counting (i stop : UInt32)
  | start (k : UInt64)
  | startLower (k : UInt64) (upper : UInt32)
  | look (target : UInt64)
  | lookLower (target : UInt64) (upper : UInt32)
  | hlt (target : UInt64)
  | halted (target : UInt64)
  | returned
  deriving DecidableEq, Repr

/-- `sleep_ms` up to its first load of `start_ticks`, for what `pit_get_frequency` returns. -/
def sleepMs (pitHz ms : UInt32) : SleepAt :=
  if pitHz = 0 then .counting 0 (ms * 1000) else .start (sleepTicks ms pitHz)

/-- One step of the main line.  The compiled `time_get_ticks` loads the upper half first. -/
def SleepAt.turn (ticks : UInt64) : SleepAt → SleepAt
  | .counting i stop => if i < stop then .counting (i + 1) stop else .returned
  | .start k => .startLower k (upperHalf ticks)
  | .startLower k upper => .look (joinHalves upper (lowerHalf ticks) + k)
  | .look target => .lookLower target (upperHalf ticks)
  | .lookLower target upper =>
    if joinHalves upper (lowerHalf ticks) < target then .hlt target else .returned
  | .hlt target => .halted target
  | .halted target => .halted target
  | .returned => .returned

/-- The machine, and where `sleep_ms` is. -/
structure SleepState where
  irq : IrqState
  place : SleepAt

/-- An event of the machine, an interrupt that wakes the CPU, or a step of the main line. -/
inductive SleepEvent
  | irq (e : IrqEvent)
  | wake (e : IrqEvent)
  | turn

/-- The CPU takes an interrupt. -/
def IrqEvent.Interrupts : IrqEvent → Prop
  | .take _ _ | .spurious _ _ => True
  | _ => False

/-- The main line sleeps. -/
def IrqEvent.Asleep : IrqEvent → Prop
  | .main | .call _ | .keyboardInit | .exception _ _ _ => False
  | _ => True

/-- One event.  A halted CPU goes on behind the `hlt` once it has taken an interrupt. -/
inductive SleepStep (s : SleepState) : SleepEvent → SleepState → Prop
  | irq {e : IrqEvent} {t : IrqState} (h : IrqStep s.irq e t) (hasleep : e.Asleep)
      (hawake : e.Interrupts → ∀ target, s.place ≠ .halted target) :
      SleepStep s (.irq e) { s with irq := t }
  | wake {e : IrqEvent} {t : IrqState} {target : UInt64} (h : IrqStep s.irq e t)
      (htakes : e.Interrupts) (hhalted : s.place = .halted target) :
      SleepStep s (.wake e) ⟨t, .look target⟩
  | turn (hidle : s.irq.handler = none) (hawake : ∀ target, s.place ≠ .halted target) :
      SleepStep s .turn { s with place := s.place.turn s.irq.pc.machine.ticks }

/-- The events of the machine. -/
def SleepEvent.irq? : SleepEvent → Option IrqEvent
  | .irq e | .wake e => some e
  | .turn => none

def irqEvents (events : List SleepEvent) : List IrqEvent := events.filterMap SleepEvent.irq?

/-- The halted CPU is woken. -/
def SleepEvent.isWake : SleepEvent → Bool
  | .wake _ => true
  | _ => false

/-- How often the halted CPU is woken. -/
def wakes (events : List SleepEvent) : Nat := events.countP SleepEvent.isWake

variable {x y z : SleepState} {ev : SleepEvent} {evs evs' : List SleepEvent} {target : UInt64}
  {ms pitHz upper : UInt32} {low high high' : Nat} {place : SleepAt}

theorem upperHalf_toNat (ticks : UInt64) : (upperHalf ticks).toNat = ticks.toNat / 2 ^ 32 := by
  have hlt : ticks.toNat / 2 ^ 32 < 2 ^ 32 := by
    have := ticks.toNat_lt
    omega
  rw [upperHalf, UInt64.toNat_toUInt32, UInt64.toNat_shiftRight, Nat.shiftRight_eq_div_pow]
  exact Nat.mod_eq_of_lt hlt

theorem joinHalves_toNat (upper : UInt32) (ticks : UInt64) :
    (joinHalves upper (lowerHalf ticks)).toNat =
      upper.toNat * 2 ^ 32 + ticks.toNat % 2 ^ 32 := by
  have hupper := upper.toNat_lt
  rw [joinHalves, lowerHalf, UInt64.toNat_add, UInt64.toNat_mul, UInt32.toNat_toUInt64,
    UInt32.toNat_toUInt64, UInt64.toNat_toUInt32]
  change (upper.toNat * 2 ^ 32 % 2 ^ 64 + ticks.toNat % 2 ^ 32) % 2 ^ 64 = _
  omega

/-- Two loads with the same upper half give the counter. -/
theorem joinHalves_upperHalf (ticks : UInt64) :
    joinHalves (upperHalf ticks) (lowerHalf ticks) = ticks := by
  apply UInt64.toNat_inj.mp
  rw [joinHalves_toNat, upperHalf_toNat]
  omega

theorem irqEvents_append (evs evs' : List SleepEvent) :
    irqEvents (evs ++ evs') = irqEvents evs ++ irqEvents evs' := List.filterMap_append

theorem SleepStep.irq_run (h : SleepStep x ev y) : Run IrqStep x.irq (irqEvents [ev]) y.irq := by
  cases h with
  | irq h => exact Run.snoc .nil h
  | wake h => exact Run.snoc .nil h
  | turn => exact .nil

/-- What happens to the machine meanwhile. -/
theorem Run.sleep_irq (h : Run SleepStep x evs y) : Run IrqStep x.irq (irqEvents evs) y.irq := by
  induction h with
  | nil => exact .nil
  | snoc _ hop ih =>
    rw [irqEvents_append]
    exact ih.append hop.irq_run

/-- The loop of `sleep_ms` that waits for `target`; an upper half that has been loaded is
between these two. -/
inductive Waits (target : UInt64) (low high : Nat) : SleepAt → Prop
  | look : Waits target low high (.look target)
  | lookLower {upper : UInt32} (hlow : low ≤ upper.toNat) (hhigh : upper.toNat ≤ high) :
      Waits target low high (.lookLower target upper)
  | hlt : Waits target low high (.hlt target)
  | halted : Waits target low high (.halted target)
  | returned : Waits target low high .returned

theorem Waits.mono (h : Waits target low high place) (hle : high ≤ high') :
    Waits target low high' place := by
  cases h with
  | lookLower hlow hhigh => exact .lookLower hlow (hhigh.trans hle)
  | look => exact .look
  | hlt => exact .hlt
  | halted => exact .halted
  | returned => exact .returned

/-- A step of the main line, with the counter's upper half between the two. -/
theorem Waits.turn (h : Waits target low high place) (hlow : low ≤ ticks.toNat / 2 ^ 32)
    (hhigh : ticks.toNat / 2 ^ 32 ≤ high) : Waits target low high (place.turn ticks) := by
  cases h with
  | look =>
    rw [← upperHalf_toNat] at hlow hhigh
    exact .lookLower hlow hhigh
  | lookLower =>
    rw [SleepAt.turn]
    split_ifs
    · exact .hlt
    · exact .returned
  | hlt => exact .halted
  | halted => exact .halted
  | returned => exact .returned

/-- The counter when the main line looks at it. -/
theorem ticks_of_idle (hrun : Run IrqStep s events t) (hs : Delivers 1 s)
    (hidle : s.handler = none) (hidle' : t.handler = none)
    (hfits : s.pc.machine.ticks.toNat + timerInterrupts events < 2 ^ 64) :
    t.pc.machine.ticks.toNat = s.pc.machine.ticks.toNat + timerInterrupts events := by
  have hcounted := hrun.counts hs
  rw [countedTicks_of_idle hidle, countedTicks_of_idle hidle'] at hcounted
  rw [hcounted, UInt64.toNat_add, UInt64.toNat_ofNat', Nat.add_mod_mod, Nat.mod_eq_of_lt hfits]

/-- A sleep of `k` ticks that has read `start_ticks` in `x`, when no handler was running, and
now has come to `y`; the counter does not wrap around meanwhile. -/
structure SleepsFor (k : UInt64) (x : SleepState) (evs : List SleepEvent) (y : SleepState) :
    Prop where
  delivers : Delivers 1 x.irq
  idle : x.irq.handler = none
  place : x.place = .look (x.irq.pc.machine.ticks + k)
  run : Run SleepStep x evs y
  target : x.irq.pc.machine.ticks.toNat + k.toNat < 2 ^ 64
  counter : x.irq.pc.machine.ticks.toNat + timerInterrupts (irqEvents evs) < 2 ^ 64

variable {k : UInt64}

theorem SleepsFor.cut (h : SleepsFor k x (evs ++ evs') z) (hrun : Run SleepStep x evs y) :
    SleepsFor k x evs y := by
  have hcounter := h.counter
  rw [irqEvents_append, timerInterrupts_append] at hcounter
  exact ⟨h.delivers, h.idle, h.place, hrun, h.target, by omega⟩

/-- The counter at an idle moment of the sleep. -/
theorem SleepsFor.now (h : SleepsFor k x evs y) (hidle : y.irq.handler = none) :
    y.irq.pc.machine.ticks.toNat =
      x.irq.pc.machine.ticks.toNat + timerInterrupts (irqEvents evs) :=
  ticks_of_idle h.run.sleep_irq h.delivers h.idle hidle h.counter

/-- **Where a sleep is**: an upper half that it has loaded is one the counter has had. -/
theorem SleepsFor.waits (h : SleepsFor k x evs y) :
    Waits (x.irq.pc.machine.ticks + k) (x.irq.pc.machine.ticks.toNat / 2 ^ 32)
      ((x.irq.pc.machine.ticks.toNat + timerInterrupts (irqEvents evs)) / 2 ^ 32) y.place := by
  obtain ⟨hdelivers, hidle, hplace, hrun, htarget, hcounter⟩ := h
  induction hrun with
  | nil => exact hplace ▸ .look
  | @snoc evs y z ev hbefore hstep ih =>
    have hcut : SleepsFor k x evs y :=
      SleepsFor.cut ⟨hdelivers, hidle, hplace, hbefore.snoc hstep, htarget, hcounter⟩ hbefore
    have hle : (x.irq.pc.machine.ticks.toNat + timerInterrupts (irqEvents evs)) / 2 ^ 32 ≤
        (x.irq.pc.machine.ticks.toNat + timerInterrupts (irqEvents (evs ++ [ev]))) / 2 ^ 32 := by
      rw [irqEvents_append, timerInterrupts_append]
      omega
    have hwaits := (ih hcut.counter).mono hle
    cases hstep with
    | irq => exact hwaits
    | wake _ _ hhalted =>
      rw [hhalted] at hwaits
      cases hwaits
      exact .look
    | turn hfree hawake =>
      have hticks := hcut.now hfree
      refine hwaits.turn ?_ (hticks ▸ hle)
      rw [hticks]
      omega

/-- **A sleep is not back early**: what it reads is never more than the counter. -/
theorem SleepsFor.returned (h : SleepsFor k x evs y) (hback : y.place = .returned) :
    k.toNat ≤ timerInterrupts (irqEvents evs) := by
  obtain ⟨hdelivers, hidle, hplace, hrun, htarget, hcounter⟩ := h
  induction hrun with
  | nil =>
    rw [hplace] at hback
    cases hback
  | @snoc evs y z ev hbefore hstep ih =>
    have hcut : SleepsFor k x evs y :=
      SleepsFor.cut ⟨hdelivers, hidle, hplace, hbefore.snoc hstep, htarget, hcounter⟩ hbefore
    rw [irqEvents_append, timerInterrupts_append]
    cases hstep with
    | irq => exact (ih hback hcut.counter).trans (Nat.le_add_right _ _)
    | wake => cases hback
    | turn hfree hawake =>
      have hwaits := hcut.waits
      cases hwas : y.place with
      | returned => exact (ih hwas hcut.counter).trans (Nat.le_add_right _ _)
      | lookLower target upper =>
        rw [hwas] at hwaits
        cases hwaits with
        | lookLower hlow hhigh =>
          dsimp only at hback
          rw [hwas, SleepAt.turn] at hback
          split_ifs at hback with hearly
          have hread := Nat.not_lt.mp (mt UInt64.lt_iff_toNat_lt.mpr hearly)
          rw [joinHalves_toNat, hcut.now hfree, UInt64.toNat_add, Nat.mod_eq_of_lt htarget]
            at hread
          omega
      | counting | start | startLower =>
        rw [hwas] at hwaits
        cases hwaits
      | look | hlt =>
        dsimp only at hback
        rw [hwas] at hback
        cases hback
      | halted target => exact absurd hwas (hawake target)

/-- The events leave the upper half of the counter as it is. -/
def SameUpper (s : IrqState) (events : List IrqEvent) : Prop :=
  (s.pc.machine.ticks.toNat + timerInterrupts events) / 2 ^ 32 =
    s.pc.machine.ticks.toNat / 2 ^ 32

/-- **When the ticks are there**, the next look at the counter is the last. -/
theorem SleepsFor.look_back (h : SleepsFor k x evs y) (hidle : y.irq.handler = none)
    (hsame : SameUpper x.irq (irqEvents evs)) (hdone : k.toNat ≤ timerInterrupts (irqEvents evs))
    (hlook : y.place = .lookLower target upper) :
    y.place.turn y.irq.pc.machine.ticks = .returned := by
  have hwaits := h.waits
  have hticks := h.now hidle
  rw [hlook] at hwaits ⊢
  cases hwaits with
  | lookLower hlow hhigh =>
    rw [SleepAt.turn, if_neg]
    rw [SameUpper] at hsame
    rw [UInt64.lt_iff_toNat_lt, joinHalves_toNat, hticks, UInt64.toNat_add,
      Nat.mod_eq_of_lt h.target]
    omega

/-- Then the CPU is woken at most once, and after that the sleep is at its last look. -/
theorem SleepsFor.wakes (h : SleepsFor k x evs y)
    (hdone : k.toNat ≤ timerInterrupts (irqEvents evs)) (hrun : Run SleepStep y evs' z)
    (hcounter : x.irq.pc.machine.ticks.toNat +
      timerInterrupts (irqEvents (evs ++ evs')) < 2 ^ 64)
    (hsame : SameUpper x.irq (irqEvents (evs ++ evs'))) :
    OsKernel.wakes evs' = 0 ∨ OsKernel.wakes evs' = 1 ∧
      ((∃ target, z.place = .look target) ∨ (∃ target upper, z.place = .lookLower target upper) ∨
        z.place = .returned) := by
  induction hrun with
  | nil => exact .inl rfl
  | @snoc evs' z z' ev hbefore hstep ih =>
    have hsplit : irqEvents (evs ++ (evs' ++ [ev])) =
        irqEvents (evs ++ evs') ++ irqEvents [ev] := by
      rw [← List.append_assoc, irqEvents_append]
    rw [SameUpper] at hsame
    rw [hsplit, timerInterrupts_append] at hcounter hsame
    have hcut : SleepsFor k x (evs ++ evs') z :=
      ⟨h.delivers, h.idle, h.place, h.run.append hbefore, h.target, by omega⟩
    have hsame' : SameUpper x.irq (irqEvents (evs ++ evs')) := by
      rw [SameUpper]
      omega
    have hcount : OsKernel.wakes (evs' ++ [ev]) = OsKernel.wakes evs' + OsKernel.wakes [ev] :=
      List.countP_append
    rw [hcount]
    cases hstep with
    | irq => exact ih hcut.counter hsame'
    | wake _ _ hhalted =>
      rcases ih hcut.counter hsame' with hnone | ⟨-, ⟨target, hwas⟩ | ⟨target, upper, hwas⟩ | hwas⟩
      · exact .inr ⟨by rw [hnone]; rfl, .inl ⟨_, rfl⟩⟩
      all_goals
        rw [hhalted] at hwas
        cases hwas
    | turn hfree hawake =>
      refine (ih hcut.counter hsame').imp id fun hone => ⟨hone.1, ?_⟩
      have hdone' : k.toNat ≤ timerInterrupts (irqEvents (evs ++ evs')) := by
        rw [irqEvents_append, timerInterrupts_append]
        omega
      rcases hone.2 with ⟨target, hwas⟩ | ⟨target, upper, hwas⟩ | hwas
      · refine .inr (.inl ⟨target, upperHalf z.irq.pc.machine.ticks, ?_⟩)
        dsimp only
        rw [hwas]
        rfl
      · exact .inr (.inr (hcut.look_back hfree hsame' hdone' hwas))
      · refine .inr (.inr ?_)
        dsimp only
        rw [hwas]
        rfl

/-- **`sleep_ms` sleeps for its ticks.**  Started in any reachable state, with the timer set
up: if the upper half of `start_ticks` that it has loaded is still the counter's when it loads
the lower half, it is not back before `ms * hz / 1000` more interrupts of the timer have been
taken, whatever else happens.  Once they have, and as long as the upper half stays what it is,
each look at the counter is the last, and the CPU is woken from at most one more `hlt`. -/
theorem sleep_ms_waits (m : Machine) (mask1 mask2 : UInt8) (before : List IrqEvent)
    (s r : IrqState) (ms pitHz upper : UInt32) (reading evs evs' : List SleepEvent)
    (y z : SleepState) (hbefore : Run IrqStep (bootedIrq m mask1 mask2) before s)
    (hreading : Run SleepStep ⟨s, sleepMs pitHz ms⟩ reading
      ⟨r, .startLower (sleepTicks ms pitHz) upper⟩)
    (hfree : r.handler = none) (hupper : upper = upperHalf r.pc.machine.ticks)
    (hrun : Run SleepStep
      ⟨r, (SleepAt.startLower (sleepTicks ms pitHz) upper).turn r.pc.machine.ticks⟩ evs y)
    (hrun' : Run SleepStep y evs' z)
    (htarget : r.pc.machine.ticks.toNat + (sleepTicks ms pitHz).toNat < 2 ^ 64)
    (hcounter : r.pc.machine.ticks.toNat +
      timerInterrupts (irqEvents (evs ++ evs')) < 2 ^ 64) :
    (y.place = .returned → (sleepTicks ms pitHz).toNat ≤ timerInterrupts (irqEvents evs)) ∧
    ((sleepTicks ms pitHz).toNat ≤ timerInterrupts (irqEvents evs) →
      SameUpper r (irqEvents (evs ++ evs')) →
      wakes evs' ≤ 1 ∧ (z.irq.handler = none → ∀ target upper, z.place = .lookLower target upper →
        z.place.turn z.irq.pc.machine.ticks = .returned)) := by
  have hstart : (SleepAt.startLower (sleepTicks ms pitHz) upper).turn r.pc.machine.ticks =
      .look (r.pc.machine.ticks + sleepTicks ms pitHz) := by
    rw [SleepAt.turn, hupper, joinHalves_upperHalf]
  rw [hstart] at hrun
  have hdelivers := (hbefore.append hreading.sleep_irq).delivers (delivers_bootedIrq m mask1 mask2)
  have hall : SleepsFor (sleepTicks ms pitHz)
      ⟨r, .look (r.pc.machine.ticks + sleepTicks ms pitHz)⟩ (evs ++ evs') z :=
    ⟨hdelivers, hfree, rfl, hrun.append hrun', htarget, hcounter⟩
  have hfirst := hall.cut hrun
  refine ⟨hfirst.returned, fun hdone hsame => ⟨?_, fun hidle target upper hlook => ?_⟩⟩
  · rcases hfirst.wakes hdone hrun' hcounter hsame with hnone | ⟨hone, -⟩
    · rw [hnone]
      exact Nat.zero_le 1
    · exact hone.le
  · refine hall.look_back hidle hsame ?_ hlook
    rw [irqEvents_append, timerInterrupts_append]
    omega

/-- Ten milliseconds at 100 Hz: one interrupt of the timer, and the sleep is over. -/
theorem sleep_ms_waits_tick : ∃ reading r evs y,
    Run SleepStep ⟨bootedIrq freshMachine 0xFE 0xFF, sleepMs 100 10⟩ reading
      ⟨r, .startLower (sleepTicks 10 100) 0⟩ ∧
    Run SleepStep ⟨r, (SleepAt.startLower (sleepTicks 10 100) 0).turn r.pc.machine.ticks⟩ evs y ∧
    y.place = .returned ∧ (sleepTicks 10 100).toNat ≤ timerInterrupts (irqEvents evs) := by
  obtain ⟨s₁, s₂, s₃, s₄, s₅, hraise, htake, htick, heoi, hiret, hidle, -, hticks⟩ :=
    exists_timer_steps freshMachine
  have hupper := SleepStep.turn (s := ⟨bootedIrq freshMachine 0xFE 0xFF, .start 1⟩) rfl
    (fun _ h => by cases h)
  have hlook := SleepStep.turn (s := ⟨bootedIrq freshMachine 0xFE 0xFF, .look 1⟩) rfl
    (fun _ h => by cases h)
  have hlower := SleepStep.turn (s := ⟨bootedIrq freshMachine 0xFE 0xFF, .lookLower 1 0⟩) rfl
    (fun _ h => by cases h)
  have hhlt := SleepStep.turn (s := ⟨bootedIrq freshMachine 0xFE 0xFF, .hlt 1⟩) rfl
    (fun _ h => by cases h)
  have hlook' := SleepStep.turn (s := ⟨s₅, .look 1⟩) hidle (fun _ h => by cases h)
  have hlower' := SleepStep.turn
    (s := ⟨s₅, .lookLower 1 (upperHalf s₅.pc.machine.ticks)⟩) hidle (fun _ h => by cases h)
  have hback : (SleepAt.lookLower 1 (upperHalf s₅.pc.machine.ticks)).turn s₅.pc.machine.ticks =
      .returned := by
    rw [hticks]
    rfl
  have hrun : Run SleepStep ⟨bootedIrq freshMachine 0xFE 0xFF, .look 1⟩ [.turn, .turn, .turn,
      .irq (.raise 0), .wake (.take 32 idleInterrupted), .irq .handler, .irq .handler, .irq .iret,
      .turn, .turn] ⟨s₅, .returned⟩ := by
    have hend := (((((((((Run.nil.snoc hlook).snoc hlower).snoc hhlt).snoc
      (.irq hraise trivial (fun h => h.elim))).snoc (.wake htake trivial rfl)).snoc
      (.irq htick trivial (fun h => h.elim))).snoc (.irq heoi trivial (fun h => h.elim))).snoc
      (.irq hiret trivial (fun h => h.elim))).snoc hlook').snoc hlower'
    rw [← hback]
    exact hend
  have hwaits := sleep_ms_waits freshMachine 0xFE 0xFF [] _ _ 10 100 0 [.turn] _ [] _ _ .nil
    (Run.nil.snoc hupper) rfl rfl hrun .nil (by decide) (by decide)
  exact ⟨_, _, _, _, Run.nil.snoc hupper, hrun, rfl, hwaits.1 rfl⟩

/-- **A torn `start_ticks`.**  When the timer's interrupt that carries into the upper half
comes between the two loads, `sleep_ms` is back after that one interrupt. -/
theorem sleep_ms_torn (m : Machine) (ms pitHz : UInt32) (hhz : pitHz ≠ 0)
    (hlast : m.ticks.toNat % 2 ^ 32 = 2 ^ 32 - 1) (hroom : m.ticks.toNat + 1 < 2 ^ 64)
    (hshort : (sleepTicks ms pitHz).toNat ≤ 2 ^ 32) : ∃ evs y,
    Run SleepStep ⟨bootedIrq m 0xFE 0xFF, sleepMs pitHz ms⟩ evs y ∧ y.place = .returned ∧
      timerInterrupts (irqEvents evs) = 1 := by
  obtain ⟨s₁, s₂, s₃, s₄, s₅, hraise, htake, htick, heoi, hiret, hidle, -, hticks⟩ :=
    exists_timer_steps m
  obtain ⟨k, hk⟩ : ∃ k, k = sleepTicks ms pitHz := ⟨_, rfl⟩
  have hstart : sleepMs pitHz ms = .start k := hk ▸ if_neg hhz
  rw [← hk] at hshort
  -- the upper half of before the carry, and the lower half of after it
  obtain ⟨target, htarget⟩ : ∃ target, target =
      joinHalves (upperHalf m.ticks) (lowerHalf s₅.pc.machine.ticks) + k := ⟨_, rfl⟩
  have hnow : s₅.pc.machine.ticks.toNat = m.ticks.toNat + 1 := by
    rw [hticks, UInt64.toNat_add]
    exact Nat.mod_eq_of_lt hroom
  have hlow : target.toNat ≤ s₅.pc.machine.ticks.toNat := by
    rw [htarget, UInt64.toNat_add, joinHalves_toNat, upperHalf_toNat, hnow]
    omega
  have hupper := SleepStep.turn (s := ⟨bootedIrq m 0xFE 0xFF, .start k⟩) rfl
    (fun _ h => by cases h)
  have hlower := SleepStep.turn (s := ⟨s₅, .startLower k (upperHalf m.ticks)⟩) hidle
    (fun _ h => by cases h)
  have hlook := SleepStep.turn (s := ⟨s₅, .look target⟩) hidle (fun _ h => by cases h)
  have hend := SleepStep.turn (s := ⟨s₅, .lookLower target (upperHalf s₅.pc.machine.ticks)⟩)
    hidle (fun _ h => by cases h)
  rw [SleepAt.turn, ← htarget] at hlower
  rw [SleepAt.turn, joinHalves_upperHalf,
    if_neg fun hlt => Nat.not_lt.mpr hlow (UInt64.lt_iff_toNat_lt.mp hlt)] at hend
  rw [hstart]
  have hrun := ((((((((Run.nil.snoc hupper).snoc (.irq hraise trivial (fun h => h.elim))).snoc
    (.irq htake trivial (fun _ _ h => by cases h))).snoc
    (.irq htick trivial (fun h => h.elim))).snoc (.irq heoi trivial (fun h => h.elim))).snoc
    (.irq hiret trivial (fun h => h.elim))).snoc hlower).snoc hlook).snoc hend
  exact ⟨_, _, hrun, rfl, rfl⟩

/-- A second at 100 Hz that begins with the last tick before the carry takes one tick. -/
theorem sleep_ms_torn_second : ∃ evs y,
    Run SleepStep ⟨bootedIrq { freshMachine with ticks := 0xFFFFFFFF } 0xFE 0xFF,
      sleepMs 100 1000⟩ evs y ∧ y.place = .returned ∧ timerInterrupts (irqEvents evs) = 1 ∧
      sleepTicks 1000 100 = 100 := by
  obtain ⟨evs, y, hrun, hback, hone⟩ := sleep_ms_torn { freshMachine with ticks := 0xFFFFFFFF }
    1000 100 (by decide) (by decide) (by decide) (by decide)
  exact ⟨evs, y, hrun, hback, hone, by decide⟩

/-! ## How long that is -/

/-- From 19 Hz on the chip gets the divisor that the frequency is computed from. -/
theorem pitInit_divisor (inb : UInt16 → UInt8) (logDebug : LogDebug) {hz : UInt32}
    (tm : Timer) (hlow : 19 ≤ hz.toNat) (hlock : tm.machine.locked = false) :
    ∃ tm', pitInit inb logDebug hz tm = some tm' ∧
      ∀ counter : PitCounter, 0 < (counter.after tm'.machine.out).reload ∧
        (pitGetFrequency tm').toNat = 1193182 / (counter.after tm'.machine.out).reload := by
  have hhz : hz ≠ 0 := by
    rintro rfl
    exact absurd hlow (by decide)
  obtain ⟨m', mask, hinit, hsends⟩ := pitInit_returns inb logDebug tm hhz hlock
  have hcap : 19 ≤ min hz.toNat 1193182 := le_min hlow (by decide)
  have hle := Nat.min_le_right hz.toNat 1193182
  have hdivisor := pitDivisor_toNat hhz
  have hone : 0 < 1193182 / min hz.toNat 1193182 := Nat.div_pos hle (by omega)
  have hsmall : 1193182 / min hz.toNat 1193182 ≤ 1193182 / 19 :=
    Nat.div_le_div_left hcap (by decide)
  refine ⟨_, hinit, fun counter => ?_⟩
  have hreload : (counter.after m'.out).reload = 1193182 / min hz.toNat 1193182 := by
    rw [hsends.counter, reload_after, reloadValue_divisor, hdivisor,
      Nat.mod_eq_of_lt (by omega), if_neg (by omega)]
  rw [hreload, pitGetFrequency, UInt32.toNat_div, hdivisor]
  exact ⟨hone, rfl⟩

theorem toNat_sleepTicks (ms pitHz : UInt32) :
    (sleepTicks ms pitHz).toNat = ms.toNat * pitHz.toNat / 1000 := by
  have hms := ms.toNat_lt
  have hhz := pitHz.toNat_lt
  have hfits : ms.toNat * pitHz.toNat < 2 ^ 64 :=
    calc ms.toNat * pitHz.toNat < 2 ^ 32 * 2 ^ 32 := Nat.mul_lt_mul'' hms hhz
      _ = 2 ^ 64 := by decide
  rw [sleepTicks, UInt64.toNat_div, UInt64.toNat_mul, UInt32.toNat_toUInt64,
    UInt32.toNat_toUInt64, Nat.mod_eq_of_lt hfits]
  rfl

/-- **Two roundings down**: a whole number of periods of a rounded frequency. -/
theorem periods_bounds {clock divisor ms : Nat} (hpos : 0 < divisor) :
    1000 * (ms * (clock / divisor) / 1000 * divisor) ≤ clock * ms ∧
      clock * ms < 1000 * ((ms * (clock / divisor) / 1000 + 1) * divisor) + ms * divisor := by
  have hclock : clock / divisor * divisor ≤ clock := Nat.div_mul_le_self clock divisor
  have hclock' : clock < (clock / divisor + 1) * divisor := by
    rw [Nat.mul_comm]
    exact Nat.lt_mul_div_succ clock hpos
  have hticks := Nat.div_mul_le_self (ms * (clock / divisor)) 1000
  have hticks' := Nat.lt_mul_div_succ (ms * (clock / divisor)) (show 0 < 1000 by decide)
  constructor
  · calc 1000 * (ms * (clock / divisor) / 1000 * divisor)
        = ms * (clock / divisor) / 1000 * 1000 * divisor := by ring
      _ ≤ ms * (clock / divisor) * divisor := Nat.mul_le_mul_right _ hticks
      _ = ms * (clock / divisor * divisor) := Nat.mul_assoc _ _ _
      _ ≤ ms * clock := Nat.mul_le_mul_left _ hclock
      _ = clock * ms := Nat.mul_comm _ _
  · calc clock * ms ≤ (clock / divisor + 1) * divisor * ms := Nat.mul_le_mul_right _ hclock'.le
      _ = ms * (clock / divisor) * divisor + ms * divisor := by ring
      _ < 1000 * (ms * (clock / divisor) / 1000 + 1) * divisor + ms * divisor :=
        Nat.add_lt_add_right (Nat.mul_lt_mul_of_pos_right hticks' hpos) _
      _ = _ := by ring

/-- **A sleep is never too long.**  After `pit_init` with any frequency from 19 Hz on, the ticks
that `sleep_ms` waits for are, in periods of what the chip was programmed to, at most the time
asked for, and less by no more than one period and a thousandth of a period for each
millisecond. -/
theorem sleep_length (inb : UInt16 → UInt8) (logDebug : LogDebug) (tm : Timer)
    (hz ms : UInt32) (hlow : 19 ≤ hz.toNat) (hlock : tm.machine.locked = false) :
    ∃ tm', pitInit inb logDebug hz tm = some tm' ∧ ∀ counter : PitCounter,
      1000 * ((sleepTicks ms (pitGetFrequency tm')).toNat *
          (counter.after tm'.machine.out).reload) ≤ 1193182 * ms.toNat ∧
        1193182 * ms.toNat < 1000 * (((sleepTicks ms (pitGetFrequency tm')).toNat + 1) *
          (counter.after tm'.machine.out).reload) +
            ms.toNat * (counter.after tm'.machine.out).reload := by
  obtain ⟨tm', hinit, hdivisor⟩ := pitInit_divisor inb logDebug tm hlow hlock
  refine ⟨tm', hinit, fun counter => ?_⟩
  obtain ⟨hpos, hfreq⟩ := hdivisor counter
  rw [toNat_sleepTicks, hfreq]
  exact periods_bounds hpos

/-- One second at 100 Hz: 100 periods of 11931 clock ticks. -/
theorem sleep_length_second : ∃ tm',
    pitInit (fun _ => 0xFF) logDebug 100 ⟨freshMachine, 0⟩ = some tm' ∧
    ∀ counter : PitCounter,
      1000 * ((sleepTicks 1000 (pitGetFrequency tm')).toNat *
          (counter.after tm'.machine.out).reload) ≤ 1193182 * 1000 ∧
        1193182 * 1000 < 1000 * (((sleepTicks 1000 (pitGetFrequency tm')).toNat + 1) *
          (counter.after tm'.machine.out).reload) +
            1000 * (counter.after tm'.machine.out).reload :=
  sleep_length (fun _ => 0xFF) logDebug ⟨freshMachine, 0⟩ 100 1000 (by decide) rfl

end OsKernel
