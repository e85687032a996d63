import OsKernel.ConsoleLines
import OsKernel.ConsoleText

/-! # The console is a transcript

`Transcript` is what the console is for: a text that console calls append to, one call after
the other.  Main line and handlers have their actions still to do, and one step of either
does a whole action.  `KernelStep` does the same work in small steps, with the lock and with
interrupts between any two of them, and every run of it is a run of the transcript with the
same events (`console_is_transcript`), as long as the main line prints no backspace, which
would take back what the text keeps: a call takes its place in the text when it takes the lock,
and whenever the lock is free the screen shows the text.  This does not ask that the run stays
clear of deadlock.

When handlers print only between the calls of the main line, the text is known from the
events alone (`console_shows_events`): every line is whole, and the time in front of it is
the number of timer interrupts before it.
-/
namespace OsKernel

/-! ## The transcript -/

/-- The text printed so far, the clock, and the actions that main line and handler have
still to do. -/
structure Transcript where
  text : List UInt8
  ticks : UInt64
  main : List Act
  handler : Option (List Act)

/-- An action on text and clock. -/
def Act.perform (text : List UInt8) (ticks : UInt64) : Act → List UInt8 × UInt64
  | .vga call => (call.printOn text, ticks)
  | .outb _ _ => (text, ticks)
  | .tick => (text, ticks + 1)

/-- One step: a whole action, or waiting. -/
inductive TranscriptStep : Transcript → Event → Transcript → Prop
  | call {text : List UInt8} {ticks : UInt64} {c : MainCall} {calls : List VgaCall}
      (h : c.calls ticks = some calls) :
      TranscriptStep ⟨text, ticks, [], none⟩ (.call c) ⟨text, ticks, calls.map .vga, none⟩
  | main {text text' : List UInt8} {ticks ticks' : UInt64} {act : Act} {acts : List Act}
      (h : act.perform text ticks = (text', ticks')) :
      TranscriptStep ⟨text, ticks, act :: acts, none⟩ .main ⟨text', ticks', acts, none⟩
  | mainWaits {text : List UInt8} {ticks : UInt64} {main : List Act} :
      TranscriptStep ⟨text, ticks, main, none⟩ .main ⟨text, ticks, main, none⟩
  | interrupt {text : List UInt8} {ticks : UInt64} {main acts : List Act} {irq : Irq}
      (h : irq.acts ticks = some acts) :
      TranscriptStep ⟨text, ticks, main, none⟩ (.interrupt irq) ⟨text, ticks, main, some acts⟩
  | handler {text text' : List UInt8} {ticks ticks' : UInt64} {main : List Act} {act : Act}
      {acts : List Act} (h : act.perform text ticks = (text', ticks')) :
      TranscriptStep ⟨text, ticks, main, some (act :: acts)⟩ .handler
        ⟨text', ticks', main, some acts⟩
  | handlerWaits {text : List UInt8} {ticks : UInt64} {main acts : List Act} :
      TranscriptStep ⟨text, ticks, main, some acts⟩ .handler ⟨text, ticks, main, some acts⟩
  | iret {text : List UInt8} {ticks : UInt64} {main : List Act} :
      TranscriptStep ⟨text, ticks, main, some []⟩ .handler ⟨text, ticks, main, none⟩

/-- No backspace is printed. -/
def Act.NoBackspace : Act → Prop
  | .vga call => 0x08 ∉ call.characters
  | _ => True

/-- The main line does not ask for a backspace. -/
def Event.NoBackspace : Event → Prop
  | .call c => ∀ ticks calls, c.calls ticks = some calls → 0x08 ∉ calls.flatMap VgaCall.characters
  | _ => True

/-- A handler that prints begins only when the main line has nothing left to do. -/
def Event.Orderly {α : Type*} (main : List α) (e : Event) : Prop :=
  ∀ irq, e = .interrupt irq → irq.prints = true → main = []

/-- One step of the CPU in which lines stay whole. -/
def OrderlyStep (s : KernelState) (e : Event) (s' : KernelState) : Prop :=
  KernelStep s e s' ∧ e.Orderly s.main

/-! ## What is left of a side's work -/

/-- The rest of a critical section, if a side is inside one, and the actions behind it. -/
structure Work where
  inside : Option (List VgaStep)
  acts : List Act

/-- The steps of this work. -/
def Work.micros (w : Work) : List Micro :=
  match w.inside with
  | none => w.acts.flatMap Act.micros
  | some steps => steps.map .vga ++ [.release] ++ w.acts.flatMap Act.micros

/-- The console steps before the lock is given back. -/
def Work.rest (w : Work) : List VgaStep := w.inside.getD []

/-- One step of a side.  An action begins when it takes the lock, or at once when it needs no
lock. -/
inductive WorkStep : Work → Machine → Work → Machine → Prop
  | acquire {call : VgaCall} {acts : List Act} {m : Machine} (h : m.locked = false) :
      WorkStep ⟨none, .vga call :: acts⟩ m ⟨some call.body, acts⟩ { m with locked := true }
  | vga {step : VgaStep} {steps : List VgaStep} {acts : List Act} {m : Machine} :
      WorkStep ⟨some (step :: steps), acts⟩ m ⟨some steps, acts⟩ (step.run m)
  | release {acts : List Act} {m : Machine} :
      WorkStep ⟨some [], acts⟩ m ⟨none, acts⟩ { m with locked := false }
  | outb {port : UInt16} {value : UInt8} {acts : List Act} {m : Machine} :
      WorkStep ⟨none, .outb port value :: acts⟩ m ⟨none, acts⟩ (OsKernel.outb port value m)
  | tick {acts : List Act} {m : Machine} :
      WorkStep ⟨none, .tick :: acts⟩ m ⟨none, acts⟩ { m with ticks := m.ticks + 1 }

variable {m m' : Machine} {w w' : Work} {text : List UInt8} {s s' : KernelState} {t : Transcript}
  {e : Event} {events : List Event}

theorem Work.micros_eq_nil (h : w.micros = []) : w = ⟨none, []⟩ := by
  obtain ⟨inside, acts⟩ := w
  cases inside with
  | some steps => simp [Work.micros] at h
  | none =>
    cases acts with
    | nil => rfl
    | cons act acts => cases act <;> simp [Work.micros, Act.micros, VgaCall.micros] at h

/-- **Every step of a side** is a step of its work. -/
theorem Work.step_of_run {x : Micro} {rest : List Micro} (h : w.micros = x :: rest)
    (hrun : x.run m = some m') : ∃ w', rest = w'.micros ∧ WorkStep w m w' m' := by
  obtain ⟨inside, acts⟩ := w
  cases inside with
  | some steps =>
    cases steps with
    | nil =>
      obtain ⟨rfl, rfl⟩ := List.cons.inj h
      obtain rfl := Option.some.inj hrun
      exact ⟨⟨none, acts⟩, rfl, .release⟩
    | cons step steps =>
      obtain ⟨rfl, rfl⟩ := List.cons.inj h
      obtain rfl := Option.some.inj hrun
      exact ⟨⟨some steps, acts⟩, rfl, .vga⟩
  | none =>
    cases acts with
    | nil => cases h
    | cons act acts =>
      cases act with
      | vga call =>
        obtain ⟨rfl, rfl⟩ := List.cons.inj h
        rw [Micro.run] at hrun
        split_ifs at hrun with hlock
        obtain rfl := Option.some.inj hrun
        exact ⟨⟨some call.body, acts⟩, rfl, .acquire (Bool.eq_false_iff.mpr hlock)⟩
      | outb port value =>
        obtain ⟨rfl, rfl⟩ := List.cons.inj h
        obtain rfl := Option.some.inj hrun
        exact ⟨⟨none, acts⟩, rfl, .outb⟩
      | tick =>
        obtain ⟨rfl, rfl⟩ := List.cons.inj h
        obtain rfl := Option.some.inj hrun
        exact ⟨⟨none, acts⟩, rfl, .tick⟩

/-! ## The small steps follow the transcript -/

/-- One side's work on a machine whose lock the other side may have: `other` is what the other
side has still to do inside its critical section.  When the one who has the lock is through
with it, the console shows the text. -/
structure Consistent (other : Option (List VgaStep)) (w : Work) (text : List UInt8) (m : Machine) :
    Prop where
  locked : m.locked = (other.isSome || w.inside.isSome)
  one : other = none ∨ w.inside = none
  shows : Shows text (runVgaSteps (other.getD [] ++ w.rest) m)
  noBackspace : ∀ act ∈ w.acts, act.NoBackspace

variable {other : Option (List VgaStep)}

/-- **One step of a side** is a whole action of the transcript, or nothing. -/
theorem Consistent.step (h : Consistent other w text m) (hstep : WorkStep w m w' m') :
    (w'.acts = w.acts ∧ m'.ticks = m.ticks ∧ Consistent other w' text m') ∨
    ∃ act text', w.acts = act :: w'.acts ∧ act.perform text m.ticks = (text', m'.ticks) ∧
      Consistent other w' text' m' := by
  obtain ⟨hlocked, hone, hshows, hback⟩ := h
  cases hstep with
  | @acquire call acts _ hfree =>
    obtain rfl : other = none := by
      rw [hfree] at hlocked
      simpa using hlocked.symm
    obtain ⟨hcall, hacts⟩ := List.forall_mem_cons.mp hback
    have hsame : SameText { m with locked := true } m := ⟨fun _ => rfl, rfl, rfl⟩
    have hprinted := (hshows.of_same hsame).call call hcall
    exact Or.inr ⟨_, _, rfl, rfl, rfl, Or.inl rfl, hprinted, hacts⟩
  | @vga step steps acts =>
    obtain rfl : other = none := by simpa using hone
    have honly := step.run_consoleOnly m
    refine Or.inl ⟨rfl, honly.ticks, ?_, Or.inl rfl, hshows, hback⟩
    exact honly.locked.trans hlocked
  | release =>
    obtain rfl : other = none := by simpa using hone
    exact Or.inl ⟨rfl, rfl, rfl, Or.inl rfl, hshows.of_same ⟨fun _ => rfl, rfl, rfl⟩, hback⟩
  | @outb port value acts =>
    obtain ⟨-, hacts⟩ := List.forall_mem_cons.mp hback
    have hsame : SameText (OsKernel.outb port value m) m := ⟨fun _ => rfl, rfl, rfl⟩
    exact Or.inr ⟨_, _, rfl, rfl, hlocked, Or.inr rfl, hshows.of_same (hsame.steps _), hacts⟩
  | @tick acts =>
    obtain ⟨-, hacts⟩ := List.forall_mem_cons.mp hback
    have hsame : SameText { m with ticks := m.ticks + 1 } m := ⟨fun _ => rfl, rfl, rfl⟩
    exact Or.inr ⟨_, _, rfl, rfl, hlocked, Or.inr rfl, hshows.of_same (hsame.steps _), hacts⟩

/-- A handler begins while the main line has the lock, or nobody. -/
theorem Consistent.suspend (h : Consistent none w text m) {acts : List Act}
    (hacts : ∀ act ∈ acts, act.NoBackspace) : Consistent w.inside ⟨none, acts⟩ text m where
  locked := by rw [h.locked, Option.isSome_none, Bool.false_or, Bool.or_false]
  one := Or.inr rfl
  shows := by
    have hshows := h.shows
    rw [Option.getD_none, List.nil_append] at hshows
    rw [Work.rest, Option.getD_none, List.append_nil]
    exact hshows
  noBackspace := hacts

/-- The main line goes on when the handler is through. -/
theorem Consistent.resume (h : Consistent w.inside ⟨none, []⟩ text m)
    (hmain : ∀ act ∈ w.acts, act.NoBackspace) : Consistent none w text m where
  locked := by rw [h.locked, Option.isSome_none, Bool.false_or, Bool.or_false]
  one := Or.inl rfl
  shows := by
    have hshows := h.shows
    rw [Work.rest, Option.getD_none, List.append_nil] at hshows
    rw [Option.getD_none, List.nil_append]
    exact hshows
  noBackspace := hmain

/-- **The CPU follows the transcript**: main line and handler have the same actions to do as
there. -/
inductive Mirrors : KernelState → Transcript → Prop
  | main {m : Machine} {w : Work} {text : List UInt8} (h : Consistent none w text m) :
      Mirrors ⟨m, w.micros, none⟩ ⟨text, m.ticks, w.acts, none⟩
  | handler {m : Machine} {w v : Work} {text : List UInt8} (h : Consistent w.inside v text m)
      (hmain : ∀ act ∈ w.acts, act.NoBackspace) :
      Mirrors ⟨m, w.micros, some v.micros⟩ ⟨text, m.ticks, w.acts, some v.acts⟩

/-- A handler starts with its whole work, and prints no backspace. -/
theorem Irq.acts_noBackspace {irq : Irq} {ticks : UInt64} {acts : List Act}
    (h : irq.acts ticks = some acts) : ∀ act ∈ acts, act.NoBackspace := by
  obtain ⟨calls, hacts, hprints, -⟩ := irq.acts_prints ticks
  obtain rfl := Option.some.inj (hacts.symm.trans h)
  intro act hact
  cases act with
  | vga call =>
    rcases List.mem_append.mp hact with hcall | hack
    · obtain ⟨_, hmem, heq⟩ := List.mem_map.mp hcall
      obtain rfl := Act.vga.inj heq
      intro hback
      have hnone := irq.text_noBackspace ticks
      rw [← hprints] at hnone
      exact hnone (List.mem_flatMap.mpr ⟨_, hmem, hback⟩)
    · exact absurd hack (irq.vga_notMem_acks call)
  | outb port value => trivial
  | tick => trivial

theorem Mirrors.step (h : Mirrors s t) (hstep : KernelStep s e s') (hback : e.NoBackspace) :
    ∃ t', TranscriptStep t e t' ∧ Mirrors s' t' := by
  cases h with
  | @main m w text h =>
    generalize hsteps : w.micros = steps at hstep
    cases hstep with
    | @call _ c calls hcalls =>
      obtain rfl := Work.micros_eq_nil hsteps
      refine ⟨_, .call hcalls, ?_⟩
      have hacts : ∀ act ∈ calls.map Act.vga, act.NoBackspace := by
        intro act hact
        obtain ⟨call, hcall, rfl⟩ := List.mem_map.mp hact
        exact fun hmem => hback _ _ hcalls (List.mem_flatMap.mpr ⟨call, hcall, hmem⟩)
      have hmirrors := Mirrors.main (w := ⟨none, calls.map .vga⟩) ⟨h.locked, h.one, h.shows, hacts⟩
      have hmicros : (calls.map Act.vga).flatMap Act.micros = calls.flatMap VgaCall.micros :=
        List.flatMap_map ..
      rw [Work.micros, hmicros] at hmirrors
      exact hmirrors
    | main hrun =>
      obtain ⟨w', rfl, hwork⟩ := Work.step_of_run hsteps hrun
      rcases h.step hwork with ⟨hacts, hticks, h'⟩ | ⟨act, text', hacts, hperform, h'⟩
      · rw [← hacts, ← hticks]
        exact ⟨_, .mainWaits, .main h'⟩
      · rw [hacts]
        exact ⟨_, .main hperform, .main h'⟩
    | mainSpins => exact ⟨_, .mainWaits, hsteps ▸ .main h⟩
    | interrupt hacts =>
      subst hsteps
      exact ⟨_, .interrupt hacts, .handler (h.suspend (Irq.acts_noBackspace hacts)) h.noBackspace⟩
  | @handler m w v text h hmain =>
    generalize hsteps : v.micros = steps at hstep
    generalize hmicros : w.micros = rest at hstep
    cases hstep with
    | handler hrun =>
      subst hmicros
      obtain ⟨v', rfl, hwork⟩ := Work.step_of_run hsteps hrun
      rcases h.step hwork with ⟨hacts, hticks, h'⟩ | ⟨act, text', hacts, hperform, h'⟩
      · rw [← hacts, ← hticks]
        exact ⟨_, .handlerWaits, .handler h' hmain⟩
      · rw [hacts]
        exact ⟨_, .handler hperform, .handler h' hmain⟩
    | handlerSpins => exact ⟨_, .handlerWaits, hmicros ▸ hsteps ▸ .handler h hmain⟩
    | iret =>
      subst hmicros
      obtain rfl := Work.micros_eq_nil hsteps
      exact ⟨_, .iret, .main (h.resume hmain)⟩

/-! ## Whole runs -/

/-- After `vga_init` nothing is printed yet. -/
theorem vgaInit_shows (h : vgaInit m = some m') :
    Shows [] m' ∧ m'.locked = false ∧ m'.ticks = m.ticks := by
  have honly := VgaCall.consoleOnly_of_run h
  rw [vgaInit, VgaCall.run, if_neg Bool.false_ne_true] at h
  have hclear := fun m => shows_clearCells m
  generalize runVgaSteps VgaCall.clear.body = body at h hclear
  obtain rfl := Option.some.inj h
  exact ⟨(hclear _).of_same ⟨fun _ => rfl, rfl, rfl⟩, rfl, honly.ticks⟩

/-- The CPU after `vga_init`. -/
theorem mirrors_vgaInit (h : vgaInit m = some m') :
    Mirrors ⟨m', [], none⟩ ⟨[], m.ticks, [], none⟩ := by
  obtain ⟨hshows, hlocked, hticks⟩ := vgaInit_shows h
  rw [← hticks]
  exact .main (w := ⟨none, []⟩)
    ⟨hlocked, Or.inl rfl, hshows, fun _ hact => absurd hact List.not_mem_nil⟩

/-- While nobody has the lock, the screen shows the text. -/
theorem Mirrors.shows (h : Mirrors s t) (hfree : s.machine.locked = false) :
    ShowsText t.text s.machine := by
  cases h with
  | @main m w text h =>
    have hinside : w.inside = none := by
      have hlocked := h.locked.symm.trans hfree
      simpa using hlocked
    have hshows := h.shows
    rw [Work.rest, hinside] at hshows
    exact hshows.showsText
  | @handler m w v text h =>
    have hinside : w.inside = none ∧ v.inside = none := by
      have hlocked := h.locked.symm.trans hfree
      simpa using hlocked
    have hshows := h.shows
    rw [Work.rest, hinside.1, hinside.2] at hshows
    exact hshows.showsText

/-- Both sides have the same left to do. -/
theorem Mirrors.idle (h : Mirrors s t) :
    t.ticks = s.machine.ticks ∧ (s.main = [] → t.main = []) ∧
      (s.handler = none ↔ t.handler = none) := by
  cases h with
  | main => exact ⟨rfl, fun hmain => congrArg Work.acts (Work.micros_eq_nil hmain), by simp⟩
  | handler => exact ⟨rfl, fun hmain => congrArg Work.acts (Work.micros_eq_nil hmain), by simp⟩

/-- `vga_put_char` with a timer interrupt inside. -/
def tickInsidePutChar : List Event :=
  [.call (.vga (.putChar 0x41)), .main, .interrupt .timer, .handler, .handler, .handler,
    .main, .main, .main, .main]

theorem tickInsidePutChar_run (h : m.locked = false) :
    ∃ s, Run OrderlyStep ⟨m, [], none⟩ tickInsidePutChar s ∧ s.main = [] ∧ s.handler = none ∧
      s.machine.locked = false := by
  have horderly : ∀ {e : Event} {main : List Micro}, (∀ irq, e ≠ .interrupt irq) →
      e.Orderly main := fun hno irq heq => absurd heq (hno irq)
  have hcall : OrderlyStep ⟨m, [], none⟩ (.call (.vga (.putChar 0x41)))
      ⟨m, [VgaCall.putChar 0x41].flatMap VgaCall.micros, none⟩ :=
    ⟨.call rfl, horderly (by simp)⟩
  have htake : Micro.acquire.run m = some { m with locked := true } := by
    rw [Micro.run, h, if_neg Bool.false_ne_true]
  have hmain : ∀ {m m' : Machine} {x : Micro} {rest : List Micro}, x.run m = some m' →
      OrderlyStep ⟨m, x :: rest, none⟩ .main ⟨m', rest, none⟩ :=
    fun hrun => ⟨.main hrun, horderly (by simp)⟩
  have hhandler : ∀ {m m' : Machine} {main : List Micro} {x : Micro} {rest : List Micro},
      x.run m = some m' → OrderlyStep ⟨m, main, some (x :: rest)⟩ .handler ⟨m', main, some rest⟩ :=
    fun hrun => ⟨.handler hrun, horderly (by simp)⟩
  have htimer : ∀ {m : Machine} {main : List Micro}, OrderlyStep ⟨m, main, none⟩
      (.interrupt .timer) ⟨m, main, some (irq0TimerHandler.flatMap Act.micros)⟩ := by
    refine fun {m main} => ⟨.interrupt rfl, fun irq heq hprints => ?_⟩
    obtain rfl := Event.interrupt.inj heq
    cases hprints
  have hiret : ∀ {m : Machine} {main : List Micro},
      OrderlyStep ⟨m, main, some []⟩ .handler ⟨m, main, none⟩ :=
    ⟨.iret, horderly (by simp)⟩
  exact ⟨_, (((((((((Run.nil.snoc hcall).snoc (hmain htake)).snoc htimer).snoc
    (hhandler rfl)).snoc (hhandler rfl)).snoc hiret).snoc (hmain rfl)).snoc (hmain rfl)).snoc
    (hmain rfl)).snoc (hmain rfl), rfl, rfl, rfl⟩

theorem tickInsidePutChar_noBackspace : ∀ e ∈ tickInsidePutChar, e.NoBackspace := by
  intro e he
  cases e with
  | call c =>
    obtain rfl : c = .vga (.putChar 0x41) := by simpa [tickInsidePutChar] using he
    intro ticks calls hcalls
    obtain rfl := Option.some.inj hcalls
    decide
  | main | interrupt | handler => trivial

theorem exists_vgaInit (m : Machine) : ∃ m', vgaInit m = some m' := by
  obtain ⟨m', hrun, -⟩ := VgaCall.run_consoleOnly .clear
    (m := { m with locked := false, colorByte := vgaColorWhite ||| (vgaColorBlack <<< 4) }) rfl
  exact ⟨m', hrun⟩

/-- **The console is a transcript.**  Every run after `vga_init`, with interrupts between any
two steps, is a run of the transcript with the same events, as long as the main line prints
no backspace: calls take their places in the text one after the other, those of the main
line and those of a handler each in their order, none lost and none twice.  Whenever the
lock is free, the characters on the screen are the last 25 rows of the layout of the text,
and the cursor is where the layout ends. -/
theorem console_is_transcript (hinit : vgaInit m = some m')
    (hback : ∀ e ∈ events, e.NoBackspace) (hrun : Run KernelStep ⟨m', [], none⟩ events s) :
    ∃ t, Run TranscriptStep ⟨[], m.ticks, [], none⟩ events t ∧ t.ticks = s.machine.ticks ∧
      (s.main = [] → t.main = []) ∧ (s.handler = none ↔ t.handler = none) ∧
      (s.machine.locked = false → ShowsText t.text s.machine) := by
  have hstep : ∀ s e s' t, e ∈ events → Mirrors s t → KernelStep s e s' →
      ∃ t', TranscriptStep t e t' ∧ Mirrors s' t' := by
    intro s e s' t he hmirrors hstep
    exact hmirrors.step hstep (hback e he)
  obtain ⟨t, hrun', hmirrors⟩ := Run.simulation Mirrors (mirrors_vgaInit hinit) hstep hrun
  obtain ⟨hticks, hmain, hhandler⟩ := hmirrors.idle
  exact ⟨t, hrun', hticks, hmain, hhandler, hmirrors.shows⟩

/-- A timer interrupt inside `vga_put_char`. -/
theorem console_is_transcript_tick : ∃ m s t, vgaInit freshMachine = some m ∧
    Run KernelStep ⟨m, [], none⟩ tickInsidePutChar s ∧
    Run TranscriptStep ⟨[], 0, [], none⟩ tickInsidePutChar t ∧ t.main = [] ∧
    ShowsText t.text s.machine := by
  obtain ⟨m, hinit⟩ := exists_vgaInit freshMachine
  obtain ⟨-, hfree, -⟩ := vgaInit_shows hinit
  obtain ⟨s, horderly, hmain, -, hunlocked⟩ := tickInsidePutChar_run hfree
  have hrun := horderly.mono fun _ _ _ hstep => hstep.1
  obtain ⟨t, hrun', -, hmain', -, hshows⟩ :=
    console_is_transcript hinit tickInsidePutChar_noBackspace hrun
  exact ⟨m, s, t, hinit, hrun, hrun', hmain' hmain, hshows hunlocked⟩

/-! ## Whole lines -/

/-- Text and clock after an event, when nothing comes between. -/
def Event.record (s : List UInt8 × UInt64) : Event → List UInt8 × UInt64
  | .call c => (((c.calls s.2).getD []).foldl VgaCall.printOn s.1, s.2)
  | .interrupt .timer => (s.1, s.2 + 1)
  | .interrupt irq => (s.1 ++ irq.text s.2, s.2)
  | _ => s

/-- Actions one after the other, on text and clock. -/
def performAll (acts : List Act) (s : List UInt8 × UInt64) : List UInt8 × UInt64 :=
  acts.foldl (fun s act => act.perform s.1 s.2) s

/-- The actions are console calls. -/
def OnlyCalls (acts : List Act) : Prop := ∃ calls : List VgaCall, acts = calls.map .vga

/-- Text and clock when both sides are through. -/
def Transcript.finish (t : Transcript) : List UInt8 × UInt64 :=
  performAll (t.handler.getD [] ++ t.main) (t.text, t.ticks)

theorem performAll_append (acts acts' : List Act) (s : List UInt8 × UInt64) :
    performAll (acts ++ acts') s = performAll acts' (performAll acts s) := List.foldl_append

theorem performAll_calls (calls : List VgaCall) (text : List UInt8) (ticks : UInt64) :
    performAll (calls.map .vga) (text, ticks) = (calls.foldl VgaCall.printOn text, ticks) := by
  induction calls generalizing text with
  | nil => rfl
  | cons call calls ih => exact ih (call.printOn text)

theorem foldl_printOn {calls : List VgaCall} {str : List UInt8} (h : Prints calls str) :
    calls.foldl VgaCall.printOn text = text ++ str := by
  obtain ⟨rfl, hclear⟩ := h
  induction calls generalizing text with
  | nil => exact (List.append_nil text).symm
  | cons call calls ih =>
    obtain ⟨hcall, hcalls⟩ := not_or.mp (mt List.mem_cons.mpr hclear)
    have hprint : call.printOn text = text ++ call.characters := by
      cases call with
      | clear => exact absurd rfl hcall
      | putChar | write | setColor | setColors => rfl
    rw [List.foldl_cons, ih hcalls, hprint, List.flatMap_cons, List.append_assoc]

/-- **A handler that is not interrupted** does what its event records. -/
theorem performAll_acts {irq : Irq} {ticks : UInt64} {acts : List Act}
    (h : irq.acts ticks = some acts) (text : List UInt8) :
    performAll acts (text, ticks) = (Event.interrupt irq).record (text, ticks) := by
  obtain ⟨calls, hacts, hprints⟩ := irq.acts_prints ticks
  obtain rfl := Option.some.inj (hacts.symm.trans h)
  rw [performAll_append, performAll_calls, foldl_printOn hprints]
  cases irq with
  | timer =>
    rw [Irq.text, List.append_nil]
    rfl
  | keyboard scancode => rfl
  | unhandled regs =>
    rw [Irq.acks, picSendEoi]
    split_ifs <;> rfl

/-- A handler that does not print leaves the text alone. -/
theorem record_of_not_prints {irq : Irq} (h : irq.prints = false) (ticks : UInt64) :
    ∃ ticks', ∀ text, (Event.interrupt irq).record (text, ticks) = (text, ticks') := by
  cases irq with
  | timer => exact ⟨ticks + 1, fun _ => rfl⟩
  | unhandled regs => cases h
  | keyboard scancode =>
    have hrelease : scancode &&& 0x80 ≠ 0 := by simpa [Irq.prints] using h
    have htext : (Irq.keyboard scancode).text ticks = [] := if_pos hrelease
    refine ⟨ticks, fun text => ?_⟩
    change (text ++ (Irq.keyboard scancode).text ticks, ticks) = _
    rw [htext, List.append_nil]

/-- An interrupt that keeps lines whole might as well have come after the main line's work. -/
theorem Event.Orderly.record_calls {irq : Irq} {calls : List VgaCall}
    (h : (Event.interrupt irq).Orderly (calls.map Act.vga)) (text : List UInt8) (ticks : UInt64) :
    performAll (calls.map .vga) ((Event.interrupt irq).record (text, ticks)) =
      (Event.interrupt irq).record (performAll (calls.map .vga) (text, ticks)) := by
  cases hprints : irq.prints with
  | true =>
    rw [h irq rfl hprints]
    rfl
  | false =>
    obtain ⟨ticks', hrecord⟩ := record_of_not_prints hprints ticks
    rw [hrecord, performAll_calls, performAll_calls, hrecord]

/-- **One step keeps the text that both sides will have printed.** -/
theorem TranscriptStep.finish {t' : Transcript} (hstep : TranscriptStep t e t')
    (horderly : e.Orderly t.main) (hmain : OnlyCalls t.main) :
    t'.finish = e.record t.finish ∧ OnlyCalls t'.main := by
  obtain ⟨calls, hcalls⟩ := hmain
  cases hstep with
  | @call text ticks c calls' h =>
    refine ⟨?_, calls', rfl⟩
    have hrecord : (Event.call c).record (text, ticks) =
        (calls'.foldl VgaCall.printOn text, ticks) := by
      rw [Event.record, h]
      rfl
    exact (performAll_calls calls' text ticks).trans hrecord.symm
  | @main text text' ticks ticks' act acts h =>
    refine ⟨congrArg (performAll acts) h.symm, calls.tail, ?_⟩
    exact (congrArg List.tail hcalls).trans List.map_tail.symm
  | mainWaits => exact ⟨rfl, calls, hcalls⟩
  | @interrupt text ticks main acts irq h =>
    dsimp only at hcalls horderly
    subst hcalls
    refine ⟨?_, calls, rfl⟩
    rw [Transcript.finish, Option.getD_some, performAll_append, performAll_acts h,
      horderly.record_calls]
    rfl
  | @handler text text' ticks ticks' main act acts h =>
    exact ⟨congrArg (performAll (acts ++ main)) h.symm, calls, hcalls⟩
  | handlerWaits => exact ⟨rfl, calls, hcalls⟩
  | iret => exact ⟨rfl, calls, hcalls⟩

/-- One step of the transcript in which lines stay whole. -/
def OrderlyTranscriptStep (t : Transcript) (e : Event) (t' : Transcript) : Prop :=
  TranscriptStep t e t' ∧ e.Orderly t.main

theorem OrderlyTranscriptStep.run_finish {t' : Transcript} (honly : OnlyCalls t.main)
    (hrun : Run OrderlyTranscriptStep t events t') :
    t'.finish = events.foldl Event.record t.finish ∧ OnlyCalls t'.main := by
  induction hrun with
  | nil => exact ⟨rfl, honly⟩
  | snoc _ hstep ih =>
    obtain ⟨hfinish, honly'⟩ := hstep.1.finish hstep.2 ih.2
    rw [hfinish, ih.1, List.foldl_append]
    exact ⟨rfl, honly'⟩

/-- A CPU with nothing to do has given the lock back. -/
theorem Mirrors.unlocked (h : Mirrors s t) (hmain : s.main = []) (hhandler : s.handler = none) :
    s.machine.locked = false := by
  cases h with
  | main h =>
    obtain rfl := Work.micros_eq_nil hmain
    exact h.locked
  | handler => cases hhandler

/-- **What the console shows.**  In every run after `vga_init` in which the main line prints no
backspace and handlers print only between the calls of the main line, and that has ended with
nothing left to do, the screen shows the text that the events record: every call and every
handler its whole lines, in the order of the events, and each line with the time that the timer
interrupts before it have counted. -/
theorem console_shows_events (hinit : vgaInit m = some m')
    (hback : ∀ e ∈ events, e.NoBackspace) (hrun : Run OrderlyStep ⟨m', [], none⟩ events s)
    (hmain : s.main = []) (hhandler : s.handler = none) :
    ShowsText (events.foldl Event.record ([], m.ticks)).1 s.machine ∧
      s.machine.ticks = (events.foldl Event.record ([], m.ticks)).2 := by
  have hstep : ∀ s e s' t, e ∈ events → Mirrors s t → OrderlyStep s e s' →
      ∃ t', OrderlyTranscriptStep t e t' ∧ Mirrors s' t' := by
    intro s e s' t he hmirrors hstep
    obtain ⟨t', hstep', hmirrors'⟩ := hmirrors.step hstep.1 (hback e he)
    refine ⟨t', ⟨hstep', fun irq heq hprints => ?_⟩, hmirrors'⟩
    exact hmirrors.idle.2.1 (hstep.2 irq heq hprints)
  obtain ⟨t, hrun', hmirrors⟩ := Run.simulation Mirrors (mirrors_vgaInit hinit) hstep hrun
  obtain ⟨hfinish, -⟩ := OrderlyTranscriptStep.run_finish ⟨[], rfl⟩ hrun'
  obtain ⟨hticks, hmain', hhandler'⟩ := hmirrors.idle
  have hdone : t.finish = (t.text, t.ticks) := by
    rw [Transcript.finish, hmain' hmain, hhandler'.mp hhandler]
    rfl
  have hshows := hmirrors.shows (hmirrors.unlocked hmain hhandler)
  rw [hdone] at hfinish
  change (t.text, t.ticks) = events.foldl Event.record ([], m.ticks) at hfinish
  rw [← hfinish, ← hticks]
  exact ⟨hshows, rfl⟩

/-- The character and the tick are both there. -/
theorem console_shows_events_tick : ∃ m s, vgaInit freshMachine = some m ∧
    Run OrderlyStep ⟨m, [], none⟩ tickInsidePutChar s ∧ (s.machine.cells 0).toUInt8 = 0x41 ∧
    s.machine.cursorCol = 1 ∧ s.machine.ticks = 1 := by
  obtain ⟨m, hinit⟩ := exists_vgaInit freshMachine
  obtain ⟨-, hfree, -⟩ := vgaInit_shows hinit
  obtain ⟨s, hrun, hmain, hhandler, -⟩ := tickInsidePutChar_run hfree
  obtain ⟨hshows, hticks⟩ :=
    console_shows_events hinit tickInsidePutChar_noBackspace hrun hmain hhandler
  exact ⟨m, s, hinit, hrun, hshows.characters 0 0 vgaHeight_pos vgaWidth_pos, hshows.cursorCol,
    hticks⟩

end OsKernel
