import OsKernel.InterruptEoi

/-! # The console lock and interrupts (`include/spinlock.h`, `gdt_and_idt/idt_flush.asm`)

One CPU runs the main line with interrupts enabled.  Console functions take `vga_lock`
without disabling interrupts, and between any two steps an interrupt may come and run a
handler, which prints through the same lock.  `KernelStep` is one step of the two; the gates
of hardware interrupts clear the interrupt flag, so a handler is not interrupted itself.

Whoever holds the lock gives it back before it ends (`LockOwner`).  From that,
`no_deadlock_iff`: a run stays clear of deadlock exactly when no interrupt that prints is
taken while the main line is inside a console function.
-/
namespace OsKernel

/-! ## Steps of the main line and of handlers -/

/-- What the CPU does between two points where an interrupt may come. -/
inductive Micro
  | acquire
  | release
  | vga (step : VgaStep)
  | outb (port : UInt16) (value : UInt8)
  | tick
  deriving DecidableEq, Repr

/-- One step; `none` is a turn of the loop of `spinlock_acquire`, which found the lock held. -/
def Micro.run : Micro → Machine → Option Machine
  | .acquire, m => if m.locked then none else some { m with locked := true }
  | .release, m => some { m with locked := false }
  | .vga step, m => some (step.run m)
  | .outb port value, m => some (OsKernel.outb port value m)
  | .tick, m => some { m with ticks := m.ticks + 1 }

/-- The steps of a console function. -/
def VgaCall.micros (call : VgaCall) : List Micro :=
  .acquire :: (call.body.map .vga ++ [.release])

/-- The steps of an action of a handler. -/
def Act.micros : Act → List Micro
  | .vga call => call.micros
  | .outb port value => [.outb port value]
  | .tick => [.tick]

theorem foldlM_vga (steps : List VgaStep) (m : Machine) :
    (steps.map Micro.vga).foldlM (fun m x => x.run m) m = some (runVgaSteps steps m) := by
  induction steps generalizing m with
  | nil => rfl
  | cons step steps ih => exact ih (step.run m)

/-- Left alone, the steps of an action do what the action does. -/
theorem Act.foldlM_micros (act : Act) (m : Machine) :
    act.micros.foldlM (fun m x => x.run m) m = act.run m := by
  cases act with
  | vga call =>
    rw [Act.micros, VgaCall.micros, Act.run, VgaCall.run, List.foldlM_cons]
    cases hlock : m.locked with
    | true =>
      have hspin : Micro.acquire.run m = none := by rw [Micro.run, hlock, if_pos rfl]
      rw [hspin]
      rfl
    | false =>
      have htake : Micro.acquire.run m = some { m with locked := true } := by
        rw [Micro.run, hlock, if_neg Bool.false_ne_true]
      rw [htake, Option.bind_eq_bind, Option.bind_some, List.foldlM_append, foldlM_vga]
      rfl
  | outb port value => rfl
  | tick => rfl

/-- The console work the main line asks for. -/
inductive MainCall
  | vga (call : VgaCall)
  | printf (fmt : List UInt8) (args : List Arg)
  | logInfo (fmt : List UInt8) (args : List Arg)
  | logWarn (fmt : List UInt8) (args : List Arg)
  | logError (fmt : List UInt8) (args : List Arg)

/-- The console functions a call goes through. -/
def MainCall.calls (ticks : UInt64) : MainCall → Option (List VgaCall)
  | .vga call => some [call]
  | .printf fmt args => OsKernel.printf fmt args
  | .logInfo fmt args => OsKernel.logInfo ticks fmt args
  | .logWarn fmt args => OsKernel.logWarn ticks fmt args
  | .logError fmt args => OsKernel.logError ticks fmt args

/-- The interrupts whose handlers return. -/
inductive Irq
  | timer
  | keyboard (scancode : UInt8)
  | unhandled (regs : Registers)

/-- What the handler of an interrupt does. -/
def Irq.acts (ticks : UInt64) : Irq → Option (List Act)
  | .timer => some irq0TimerHandler
  | .keyboard scancode => keyboardHandler scancode ticks
  | .unhandled regs => isrUnhandledInterrupt regs ticks

/-- The CPU: what is left to do of the main line's call and, while it is suspended, of the
handler. -/
structure KernelState where
  machine : Machine
  main : List Micro
  handler : Option (List Micro)

/-- What happens next. -/
inductive Event
  | call (call : MainCall)
  | main
  | interrupt (irq : Irq)
  | handler

/-- One step of the CPU. -/
inductive KernelStep : KernelState → Event → KernelState → Prop
  | call {m : Machine} {c : MainCall} {calls : List VgaCall} (h : c.calls m.ticks = some calls) :
      KernelStep ⟨m, [], none⟩ (.call c) ⟨m, calls.flatMap VgaCall.micros, none⟩
  | main {m m' : Machine} {x : Micro} {rest : List Micro} (h : x.run m = some m') :
      KernelStep ⟨m, x :: rest, none⟩ .main ⟨m', rest, none⟩
  | mainSpins {m : Machine} {x : Micro} {rest : List Micro} (h : x.run m = none) :
      KernelStep ⟨m, x :: rest, none⟩ .main ⟨m, x :: rest, none⟩
  | interrupt {m : Machine} {main : List Micro} {irq : Irq} {acts : List Act}
      (h : irq.acts m.ticks = some acts) :
      KernelStep ⟨m, main, none⟩ (.interrupt irq) ⟨m, main, some (acts.flatMap Act.micros)⟩
  | handler {m m' : Machine} {main : List Micro} {x : Micro} {rest : List Micro}
      (h : x.run m = some m') :
      KernelStep ⟨m, main, some (x :: rest)⟩ .handler ⟨m', main, some rest⟩
  | handlerSpins {m : Machine} {main : List Micro} {x : Micro} {rest : List Micro}
      (h : x.run m = none) :
      KernelStep ⟨m, main, some (x :: rest)⟩ .handler ⟨m, main, some (x :: rest)⟩
  | iret {m : Machine} {main : List Micro} :
      KernelStep ⟨m, main, some []⟩ .handler ⟨m, main, none⟩

/-- After `vga_init`: the lock is free, and nothing is going on. -/
def KernelState.boot (m : Machine) : KernelState := ⟨{ m with locked := false }, [], none⟩

/-- These steps give the lock back before they take it: whoever has them still to do
holds it. -/
def inCritical : List Micro → Bool
  | [] => false
  | .acquire :: _ => false
  | .release :: _ => true
  | _ :: rest => inCritical rest

/-- **Deadlock**: a handler waits for the lock, and the main line it has suspended holds it. -/
def KernelState.Deadlocked (s : KernelState) : Prop :=
  s.machine.locked = true ∧ inCritical s.main = true ∧ ∃ rest, s.handler = some (.acquire :: rest)

/-- A deadlock is for ever. -/
theorem KernelState.Deadlocked.step {s s' : KernelState} {e : Event} (h : s.Deadlocked)
    (hstep : KernelStep s e s') : s' = s := by
  obtain ⟨hlocked, -, rest, hhandler⟩ := h
  cases hstep with
  | handler hrun =>
    obtain ⟨rfl, rfl⟩ := List.cons.inj (Option.some.inj hhandler)
    have hspin : Micro.acquire.run _ = none := if_pos hlocked
    exact absurd (hspin.symm.trans hrun) (by simp)
  | handlerSpins => rfl
  | call | main | mainSpins | interrupt | iret => simp at hhandler

/-! ## Who holds the lock -/

/-- These steps keep to the rules of the lock, when `held` says whether the one who does
them has it: it is taken once, console work happens inside, and it is given back. -/
def wellLocked : Bool → List Micro → Bool
  | held, [] => !held
  | held, .acquire :: rest => !held && wellLocked true rest
  | held, .release :: rest => held && wellLocked false rest
  | held, .vga _ :: rest => held && wellLocked held rest
  | held, .outb _ _ :: rest => wellLocked held rest
  | held, .tick :: rest => wellLocked held rest

theorem inCritical_of_wellLocked {held : Bool} {steps : List Micro} (h : wellLocked held steps) :
    inCritical steps = held := by
  induction steps with
  | nil =>
    cases held with
    | false => rfl
    | true => exact absurd h Bool.false_ne_true
  | cons x steps ih =>
    cases x with
    | acquire => exact ((Bool.not_eq_eq_eq_not.mp (Bool.and_eq_true_iff.mp h).1)).symm
    | release => exact (Bool.and_eq_true_iff.mp h).1.symm
    | vga step => exact ih (Bool.and_eq_true_iff.mp h).2
    | outb port value => exact ih h
    | tick => exact ih h

theorem wellLocked_vga (body : List VgaStep) (rest : List Micro) :
    wellLocked true (body.map .vga ++ rest) = wellLocked true rest := by
  induction body with
  | nil => rfl
  | cons step body ih => simpa [wellLocked] using ih

theorem wellLocked_micros (act : Act) (rest : List Micro) :
    wellLocked false (act.micros ++ rest) = wellLocked false rest := by
  cases act with
  | vga call =>
    rw [Act.micros, VgaCall.micros, List.cons_append, List.append_assoc, wellLocked,
      wellLocked_vga]
    rfl
  | outb port value => rfl
  | tick => rfl

/-- Handlers keep to the rules. -/
theorem wellLocked_flatMap_micros (acts : List Act) :
    wellLocked false (acts.flatMap Act.micros) = true := by
  induction acts with
  | nil => rfl
  | cons act acts ih => rw [List.flatMap_cons, wellLocked_micros, ih]

theorem wellLocked_flatMap_calls (calls : List VgaCall) :
    wellLocked false (calls.flatMap VgaCall.micros) = true := by
  have hacts := wellLocked_flatMap_micros (calls.map .vga)
  rwa [List.flatMap_map] at hacts

/-- Whoever may have the lock and makes a step has it afterwards exactly when it is held. -/
theorem wellLocked_run {m m' : Machine} {x : Micro} {rest : List Micro}
    (h : wellLocked m.locked (x :: rest)) (hrun : x.run m = some m') :
    wellLocked m'.locked rest = true := by
  cases x with
  | acquire =>
    rw [Micro.run] at hrun
    split at hrun
    · cases hrun
    · obtain rfl := Option.some.inj hrun
      exact (Bool.and_eq_true_iff.mp h).2
  | release =>
    obtain rfl := Option.some.inj hrun
    exact (Bool.and_eq_true_iff.mp h).2
  | vga step =>
    obtain rfl := Option.some.inj hrun
    rw [(step.run_consoleOnly m).locked]
    exact (Bool.and_eq_true_iff.mp h).2
  | outb port value =>
    obtain rfl := Option.some.inj hrun
    exact h
  | tick =>
    obtain rfl := Option.some.inj hrun
    exact h

/-- Whoever does not have the lock, while somebody else has it, gets past a step only if the
step does not touch the lock. -/
theorem wellLocked_run_other {m m' : Machine} {x : Micro} {rest : List Micro}
    (h : wellLocked false (x :: rest)) (hlocked : m.locked = true) (hrun : x.run m = some m') :
    m'.locked = true ∧ wellLocked false rest = true := by
  cases x with
  | acquire =>
    have hspin : Micro.acquire.run m = none := if_pos hlocked
    exact absurd (hspin.symm.trans hrun) (by simp)
  | release => cases h
  | vga step => cases h
  | outb port value =>
    obtain rfl := Option.some.inj hrun
    exact ⟨hlocked, h⟩
  | tick =>
    obtain rfl := Option.some.inj hrun
    exact ⟨hlocked, h⟩

/-- Main line and handler keep to the rules, and if the lock is held then one of them has
it. -/
inductive LockOwner : KernelState → Prop
  | main {m : Machine} {main : List Micro} (h : wellLocked m.locked main) :
      LockOwner ⟨m, main, none⟩
  | suspended {m : Machine} {main handler : List Micro} (hlocked : m.locked = true)
      (hmain : wellLocked true main) (hhandler : wellLocked false handler) :
      LockOwner ⟨m, main, some handler⟩
  | handler {m : Machine} {main handler : List Micro} (hmain : wellLocked false main)
      (hhandler : wellLocked m.locked handler) :
      LockOwner ⟨m, main, some handler⟩

/-- Nothing is left to do only when the lock is free. -/
theorem unlocked_of_wellLocked_nil {m : Machine} (h : wellLocked m.locked []) :
    m.locked = false := (inCritical_of_wellLocked h).symm

/-- **One step keeps the lock owned.** -/
theorem LockOwner.step {s s' : KernelState} {e : Event} (h : LockOwner s)
    (hstep : KernelStep s e s') : LockOwner s' := by
  cases h with
  | @main m main h =>
    cases hstep with
    | call =>
      refine .main ?_
      rw [unlocked_of_wellLocked_nil h]
      exact wellLocked_flatMap_calls _
    | main hrun => exact .main (wellLocked_run h hrun)
    | mainSpins => exact .main h
    | interrupt =>
      cases hlock : m.locked with
      | true => exact .suspended hlock (hlock ▸ h) (wellLocked_flatMap_micros _)
      | false => exact .handler (hlock ▸ h) (hlock ▸ wellLocked_flatMap_micros _)
  | suspended hlocked hmain hhandler =>
    cases hstep with
    | handler hrun =>
      obtain ⟨hlocked', hrest⟩ := wellLocked_run_other hhandler hlocked hrun
      exact .suspended hlocked' hmain hrest
    | handlerSpins => exact .suspended hlocked hmain hhandler
    | iret => exact .main (hlocked.symm ▸ hmain)
  | handler hmain hhandler =>
    cases hstep with
    | handler hrun => exact .handler hmain (wellLocked_run hhandler hrun)
    | handlerSpins => exact .handler hmain hhandler
    | iret => exact .main (unlocked_of_wellLocked_nil hhandler ▸ hmain)

theorem LockOwner.boot (m : Machine) : LockOwner (.boot m) := .main rfl

/-! ## Interrupts that print -/

/-- The interrupts whose handler writes to the console. -/
def Irq.prints : Irq → Bool
  | .timer => false
  | .keyboard scancode => scancode &&& 0x80 = 0
  | .unhandled _ => true

/-- Every handler prints first and acknowledges afterwards. -/
theorem Irq.acts_eq (irq : Irq) (ticks : UInt64) :
    ∃ (calls : List VgaCall) (acks : List Act), irq.acts ticks = some (calls.map .vga ++ acks) ∧
      (calls = [] ↔ irq.prints = false) ∧ Micro.acquire ∉ acks.flatMap Act.micros := by
  cases irq with
  | timer => exact ⟨[], irq0TimerHandler, rfl, by simp [prints], by decide⟩
  | keyboard scancode =>
    obtain ⟨calls, heq, hnil⟩ := keyboardHandler_eq scancode ticks
    exact ⟨calls, [.outb pic1Cmd picEoi], heq, by simpa [prints] using hnil, by decide⟩
  | unhandled regs =>
    obtain ⟨call, calls, heq⟩ := isrUnhandledInterrupt_eq regs ticks
    refine ⟨call :: calls, _, heq, by simp [prints], ?_⟩
    unfold picSendEoi
    split_ifs <;> simp [Act.micros]

/-- A handler that prints starts by taking the lock. -/
theorem Irq.acquire_of_prints {irq : Irq} {ticks : UInt64} {acts : List Act}
    (hprints : irq.prints = true) (h : irq.acts ticks = some acts) :
    ∃ rest, acts.flatMap Act.micros = .acquire :: rest := by
  obtain ⟨calls, acks, heq, hnil, -⟩ := irq.acts_eq ticks
  obtain rfl := Option.some.inj (heq.symm.trans h)
  cases calls with
  | nil => exact absurd (hnil.mp rfl) (by simp [hprints])
  | cons call calls => exact ⟨_, rfl⟩

/-- A handler that does not print leaves the lock alone. -/
theorem Irq.not_acquire {irq : Irq} {ticks : UInt64} {acts : List Act}
    (hprints : irq.prints = false) (h : irq.acts ticks = some acts) :
    Micro.acquire ∉ acts.flatMap Act.micros := by
  obtain ⟨calls, acks, heq, hnil, hacks⟩ := irq.acts_eq ticks
  obtain rfl := Option.some.inj (heq.symm.trans h)
  obtain rfl := hnil.mpr hprints
  exact hacks

/-- The step is not an interrupt that prints, taken while the main line holds the lock. -/
def Quiet (s : KernelState) (e : Event) : Prop :=
  ∀ irq, e = .interrupt irq → inCritical s.main = true → irq.prints = false

/-- A handler that has suspended the holder of the lock does not need it. -/
def HandlerClear (s : KernelState) : Prop :=
  ∀ steps, s.handler = some steps → inCritical s.main = true → Micro.acquire ∉ steps

theorem HandlerClear.not_deadlocked {s : KernelState} (h : HandlerClear s) : ¬ s.Deadlocked := by
  rintro ⟨-, hmain, rest, hhandler⟩
  exact h _ hhandler hmain List.mem_cons_self

/-- **A quiet step keeps handlers clear of the lock.** -/
theorem HandlerClear.step {s s' : KernelState} {e : Event} (h : HandlerClear s)
    (hstep : KernelStep s e s') (hquiet : Quiet s e) : HandlerClear s' := by
  intro steps hsteps hmain
  cases hstep with
  | call | main | mainSpins | iret => cases hsteps
  | interrupt hacts =>
    obtain rfl := Option.some.inj hsteps
    exact Irq.not_acquire (hquiet _ rfl hmain) hacts
  | handler =>
    obtain rfl := Option.some.inj hsteps
    exact fun hmem => h _ rfl hmain (List.mem_cons_of_mem _ hmem)
  | handlerSpins => exact h _ hsteps hmain

/-- **A printing interrupt inside a console function deadlocks**, at once. -/
theorem LockOwner.deadlocked_of_prints {s s' : KernelState} {irq : Irq} (h : LockOwner s)
    (hstep : KernelStep s (.interrupt irq) s') (hmain : inCritical s.main = true)
    (hprints : irq.prints = true) : s'.Deadlocked := by
  cases hstep with
  | interrupt hacts =>
    cases h with
    | main h =>
      obtain ⟨rest, hrest⟩ := Irq.acquire_of_prints hprints hacts
      exact ⟨(inCritical_of_wellLocked h).symm.trans hmain, hmain, rest, congrArg some hrest⟩

theorem KernelStep.unique {s t u : KernelState} {e : Event} (h : KernelStep s e t)
    (h' : KernelStep s e u) : t = u := by
  cases h <;> cases h' <;> simp_all

/-! ## Whole runs -/

/-- **When the console lock cannot deadlock.**  A run after `vga_init` meets no deadlock if
and only if no interrupt that prints is taken in a state in which the main line holds the
lock. -/
theorem no_deadlock_iff {m : Machine} {events : List Event} {s : KernelState}
    (hrun : Run KernelStep (.boot m) events s) :
    (∀ pre t, pre <+: events → Run KernelStep (.boot m) pre t → ¬ t.Deadlocked) ↔
      ∀ pre e t, pre ++ [e] <+: events → Run KernelStep (.boot m) pre t → Quiet t e := by
  constructor
  · intro hfree pre e t hpre ht irq heq hmain
    obtain ⟨u, hu⟩ := hrun.of_prefix hpre
    obtain ⟨t', ht', hstep⟩ := hu.init
    have hdet : ∀ t e u u', KernelStep t e u → KernelStep t e u' → u = u' :=
      fun _ _ _ _ h h' => h.unique h'
    obtain rfl := Run.unique hdet ht ht'
    subst heq
    have howner : LockOwner t :=
      Run.invariant LockOwner (LockOwner.boot m) (fun _ _ _ h hop => h.step hop) ht
    by_contra hprints
    exact hfree _ u hpre hu (howner.deadlocked_of_prints hstep hmain (by simpa using hprints))
  · intro hquiet pre t hpre ht
    have hclear : HandlerClear t := by
      induction ht with
      | nil => exact fun _ hnone => nomatch hnone
      | snoc ht' hop ih =>
        exact (ih ((List.prefix_append _ _).trans hpre)).step hop (hquiet _ _ _ hpre ht')
    exact hclear.not_deadlocked

/-- The main line calls `vga_put_char` and takes the lock. -/
def enterPutChar : List Event := [.call (.vga (.putChar 0x41)), .main]

/-- The main line has the lock and its character still to draw. -/
def insidePutChar (m : Machine) : KernelState :=
  ⟨{ m with locked := true }, (vgaPutChar 0x41).map .vga ++ [.release], none⟩

theorem enterPutChar_run (m : Machine) :
    Run KernelStep (.boot m) enterPutChar (insidePutChar m) := by
  have hcall : KernelStep (.boot m) (.call (.vga (.putChar 0x41)))
      ⟨{ m with locked := false }, [VgaCall.putChar 0x41].flatMap VgaCall.micros, none⟩ :=
    .call rfl
  exact (Run.nil.snoc hcall).snoc (.main rfl)

/-- The timer interrupt comes in with the lock taken, and its handler ends before the
character is drawn. -/
def tickWhileLocked : List Event :=
  enterPutChar ++ [.interrupt .timer, .handler, .handler, .handler]

theorem tickWhileLocked_run (m : Machine) :
    ∃ s, Run KernelStep (.boot m) tickWhileLocked s ∧ s.machine.ticks = m.ticks + 1 ∧
      s.machine.locked = true ∧ s.main = (insidePutChar m).main ∧ s.handler = none := by
  have htimer : KernelStep (insidePutChar m) (.interrupt .timer) _ := .interrupt rfl
  have hrun := ((enterPutChar_run m).snoc htimer).snoc (.handler rfl)
  exact ⟨_, (hrun.snoc (.handler rfl)).snoc .iret, rfl, rfl, rfl, rfl⟩

/-- A tick inside `vga_put_char` is counted, the main line goes on with the lock, and no
deadlock is met. -/
theorem no_deadlock_iff_tick :
    ∃ s, Run KernelStep (.boot freshMachine) tickWhileLocked s ∧
      s.machine.ticks = freshMachine.ticks + 1 ∧ s.machine.locked = true ∧
      s.main = (insidePutChar freshMachine).main ∧ s.handler = none ∧
      ∀ pre t, pre <+: tickWhileLocked → Run KernelStep (.boot freshMachine) pre t →
        ¬ t.Deadlocked := by
  obtain ⟨s, hrun, hticks, hlocked, hmain, hhandler⟩ := tickWhileLocked_run freshMachine
  refine ⟨s, hrun, hticks, hlocked, hmain, hhandler, (no_deadlock_iff hrun).mpr ?_⟩
  rintro pre e t hpre - irq rfl -
  have hmem : Event.interrupt irq ∈ tickWhileLocked := hpre.subset (by simp)
  obtain rfl : irq = .timer := by simpa [tickWhileLocked, enterPutChar] using hmem
  rfl

/-- **A key pressed inside `vga_put_char` hangs the machine.** -/
theorem key_inside_putChar_deadlocks :
    ∃ s, Run KernelStep (.boot freshMachine) (enterPutChar ++ [.interrupt (.keyboard 0x1E)]) s ∧
      s.Deadlocked := by
  have hrun := enterPutChar_run freshMachine
  have howner : LockOwner (insidePutChar freshMachine) :=
    Run.invariant LockOwner (LockOwner.boot freshMachine) (fun _ _ _ h hop => h.step hop) hrun
  obtain ⟨calls, acks, hacts, -⟩ := (Irq.keyboard 0x1E).acts_eq freshMachine.ticks
  have hkey : KernelStep (insidePutChar freshMachine) (.interrupt (.keyboard 0x1E)) _ :=
    .interrupt hacts
  exact ⟨_, hrun.snoc hkey, howner.deadlocked_of_prints hkey rfl rfl⟩

end OsKernel
