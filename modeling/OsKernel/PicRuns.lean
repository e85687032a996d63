import OsKernel.Pic
import OsKernel.Runs

/-! # Runs of the interrupt controllers (`pic/pic.c`)

Devices raise and lower their lines, the CPU takes interrupts, and the kernel calls the
functions of `pic.c`, in any order.  Seen from the masks, all of that is a set of lines that
the four masking functions change (`PicEvent.lines`).
-/
namespace OsKernel

/-! ## Events -/

/-- A call of a function of `pic.c`, on one of the sixteen lines. -/
inductive PicCall
  | init
  | sendEoi (irq : Fin 16)
  | maskIrq (irq : Fin 16)
  | unmaskIrq (irq : Fin 16)
  | maskAll
  | unmaskAll
  deriving DecidableEq, Repr

/-- What a call does. -/
def PicCall.acts (inb : UInt16 → UInt8) (logDebug : LogDebug) (ticks : UInt64) :
    PicCall → Option (List Act)
  | .init => picInit inb logDebug ticks
  | .sendEoi irq => some (picSendEoi (UInt8.ofNat irq))
  | .maskIrq irq => some (picMaskIrq inb logDebug (UInt8.ofNat irq))
  | .unmaskIrq irq => some (picUnmaskIrq inb logDebug (UInt8.ofNat irq))
  | .maskAll => picMaskAll ticks
  | .unmaskAll => picUnmaskAll ticks

/-- What can happen: a call, something on the console, a device at a line, or the CPU taking
an interrupt. -/
inductive PicEvent
  | call (c : PicCall)
  | print (call : VgaCall)
  | raise (n : Fin 16)
  | lower (n : Fin 16)
  | take (vector : UInt8)
  | spurious (vector : UInt8)

/-- One event. -/
inductive PicStep (logDebug : LogDebug) (s : Pc) : PicEvent → Pc → Prop
  | call {c : PicCall} {acts : List Act} {s' : Pc}
      (hacts : c.acts s.pics.inb logDebug s.machine.ticks = some acts)
      (hrun : s.run acts = some s') : PicStep logDebug s (.call c) s'
  | print {call : VgaCall} {s' : Pc} (hrun : s.run [.vga call] = some s') :
      PicStep logDebug s (.print call) s'
  | raise (n : Fin 16) : PicStep logDebug s (.raise n) { s with pics := s.pics.raise n }
  | lower (n : Fin 16) : PicStep logDebug s (.lower n) { s with pics := s.pics.lower n }
  | take {v : UInt8} {p : Cascade} (h : s.pics.acknowledge = some (v, p)) :
      PicStep logDebug s (.take v) { s with pics := p }
  | spurious : PicStep logDebug s (.spurious s.pics.spurious.1)
      { s with pics := s.pics.spurious.2 }
  | spuriousSlave : PicStep logDebug s (.spurious s.pics.spuriousSlave.1)
      { s with pics := s.pics.spuriousSlave.2 }

/-- **What an event is for**, seen from the lines that are not masked. -/
def PicEvent.lines : PicEvent → Finset (Fin 16) → Finset (Fin 16)
  | .call (.maskIrq irq), lines => lines.erase irq
  | .call (.unmaskIrq irq), lines => insert irq lines
  | .call .maskAll, _ => ∅
  | .call .unmaskAll, _ => Finset.univ
  | _, lines => lines

/-- The lines that are not masked after some events. -/
def linesAfter (events : List PicEvent) (lines : Finset (Fin 16)) : Finset (Fin 16) :=
  events.foldl (fun lines e => e.lines lines) lines

variable {p p' : Cascade} {s s' t : Pc} {acts : List Act} {logDebug : LogDebug} {ticks : UInt64}
  {v : UInt8} {c : Controller} {offset wiring : UInt8} {e : PicEvent} {events : List PicEvent}

/-! ## What an event changes -/

/-- Lines are enabled by the masks alone. -/
theorem Cascade.enabled_congr (hmaster : p'.master.mask = p.master.mask)
    (hslave : p'.slave.mask = p.slave.mask) : p'.enabled = p.enabled := by
  ext j
  rw [Cascade.mem_enabled_iff, Cascade.mem_enabled_iff]
  unfold Cascade.controllerOf
  split_ifs
  · rw [hmaster]
  · rw [hslave]

/-- **An interrupt that the CPU takes** is a line of the master, or of the slave by way of
line 2. -/
theorem Cascade.SetUp.acknowledge_cases (h : p.SetUp) (hack : p.acknowledge = some (v, p')) :
    (∃ i, i ≠ 2 ∧ p.wired.request = some i ∧ v = 0x20 + UInt8.ofNat i.val ∧
      p' = ⟨p.wired.serve i, p.slave⟩) ∨
    ∃ j, p.wired.request = some 2 ∧ p.slave.request = some j ∧ v = 0x28 + UInt8.ofNat j.val ∧
      p' = ⟨p.wired.serve 2, p.slave.serve j⟩ := by
  rw [Cascade.acknowledge] at hack
  cases hmaster : p.wired.request with
  | none =>
    rw [hmaster] at hack
    cases hack
  | some i =>
    rw [hmaster] at hack
    dsimp only at hack
    by_cases hi : i = 2
    · rw [if_pos ⟨hi, h.joined⟩, Option.map_eq_some_iff] at hack
      obtain ⟨j, hslave, heq⟩ := hack
      obtain ⟨rfl, rfl⟩ := Prod.mk.inj heq
      refine .inr ⟨j, by rw [hi], hslave, ?_, rfl⟩
      rw [Controller.vector, h.slave.offset]
    · rw [if_neg fun h => hi h.1] at hack
      obtain ⟨rfl, rfl⟩ := Prod.mk.inj (Option.some.inj hack)
      refine .inl ⟨i, hi, rfl, ?_, rfl⟩
      rw [Controller.vector, h.master.offset]

theorem Controller.SetUp.with_lines {raised serving : Finset (Fin 8)} {mask : UInt8}
    (h : c.SetUp offset wiring) :
    Controller.SetUp { c with mask := mask, raised := raised, serving := serving } offset
      wiring := ⟨h.next, h.offset, h.wiring, h.mode⟩

theorem Controller.SetUp.serve_setUp (h : c.SetUp offset wiring) (i : Fin 8) :
    (c.serve i).SetUp offset wiring := ⟨h.next, h.offset, h.wiring, h.mode⟩

theorem Cascade.SetUp.wired_setUp (h : p.SetUp) : p.wired.SetUp 0x20 0x04 :=
  h.master.with_lines

/-- Taking an interrupt leaves the programming and the masks. -/
theorem Cascade.SetUp.acknowledge (h : p.SetUp) (hack : p.acknowledge = some (v, p')) :
    p'.SetUp ∧ p'.enabled = p.enabled := by
  obtain ⟨i, -, -, -, rfl⟩ | ⟨j, -, -, -, rfl⟩ := h.acknowledge_cases hack
  · exact ⟨⟨h.wired_setUp.serve_setUp i, h.slave⟩, Cascade.enabled_congr rfl rfl⟩
  · exact ⟨⟨h.wired_setUp.serve_setUp 2, h.slave.serve_setUp j⟩, Cascade.enabled_congr rfl rfl⟩

theorem Cascade.SetUp.write_eoi (h : p.SetUp) (irq : UInt8) :
    (p.after (portWrites (picSendEoi irq))).SetUp ∧
      (p.after (portWrites (picSendEoi irq))).enabled = p.enabled := by
  unfold picSendEoi
  split_ifs
  · exact ⟨⟨h.master.with_lines, h.slave.with_lines⟩, Cascade.enabled_congr rfl rfl⟩
  · exact ⟨⟨h.master.with_lines, h.slave⟩, Cascade.enabled_congr rfl rfl⟩

theorem Cascade.SetUp.write_mask_setUp (h : p.SetUp) (n : Fin 16) (v : UInt8) :
    (p.write ⟨maskPort n, v⟩).SetUp := by
  rw [h.write_mask]
  split_ifs
  · exact ⟨h.master.with_lines, h.slave⟩
  · exact ⟨h.master, h.slave.with_lines⟩

/-- Both masks, as `pic_mask_all` and `pic_unmask_all` write them. -/
theorem Cascade.SetUp.write_masks (h : p.SetUp) (v : UInt8) :
    (p.after [⟨pic1Data, v⟩, ⟨pic2Data, v⟩]).SetUp ∧
      ∀ j, j ∈ (p.after [⟨pic1Data, v⟩, ⟨pic2Data, v⟩]).enabled ↔
        byteBit v (j.val % 8) = false := by
  have hafter : p.after [⟨pic1Data, v⟩, ⟨pic2Data, v⟩] =
      ⟨{ p.master with mask := v }, { p.slave with mask := v }⟩ := by
    change (⟨p.master.data v, p.slave.data v⟩ : Cascade) = _
    rw [h.master.data, h.slave.data]
  rw [hafter]
  refine ⟨⟨h.master.with_lines, h.slave.with_lines⟩, fun j => ?_⟩
  rw [Cascade.mem_enabled_iff]
  unfold Cascade.controllerOf
  split_ifs <;> exact Iff.rfl

/-- **One call**, seen from the controllers. -/
theorem PicCall.acts_setUp {c : PicCall} (h : p.SetUp)
    (hacts : c.acts p.inb logDebug ticks = some acts) :
    (p.after (portWrites acts)).SetUp ∧
      (p.after (portWrites acts)).enabled = (PicEvent.call c).lines p.enabled := by
  cases c with
  | init =>
    obtain ⟨start, done, heq⟩ := picInit_eq p.inb logDebug ticks
    obtain rfl := Option.some.inj (heq.symm.trans hacts)
    rw [portWrites_append, portWrites_append, portWrites_vga, portWrites_vga, List.nil_append,
      List.append_nil, after_picRemap]
    exact ⟨⟨remapped_setUp _ _ _, remapped_setUp _ _ _⟩, Cascade.enabled_congr rfl rfl⟩
  | sendEoi irq =>
    obtain rfl := Option.some.inj hacts
    exact h.write_eoi _
  | maskIrq irq =>
    obtain rfl := Option.some.inj hacts
    rw [portWrites_picMaskIrq]
    exact ⟨h.write_mask_setUp irq _, h.enabled_mask irq⟩
  | unmaskIrq irq =>
    obtain rfl := Option.some.inj hacts
    rw [portWrites_picUnmaskIrq]
    exact ⟨h.write_mask_setUp irq _, h.enabled_unmask irq⟩
  | maskAll =>
    obtain ⟨line, heq⟩ : ∃ line : List VgaCall, picMaskAll ticks =
        some ([.outb pic1Data 0xFF, .outb pic2Data 0xFF] ++ line.map .vga) := ⟨_, rfl⟩
    obtain rfl := Option.some.inj (heq.symm.trans hacts)
    rw [portWrites_append, portWrites_vga, List.append_nil]
    obtain ⟨hsetUp, hlines⟩ := h.write_masks 0xFF
    refine ⟨hsetUp, Finset.eq_empty_of_forall_notMem fun j hj => ?_⟩
    have hset : ∀ k < 8, byteBit 0xFF k = true := by decide
    have hclear := (hlines j).mp hj
    rw [hset _ (Nat.mod_lt _ (by omega))] at hclear
    cases hclear
  | unmaskAll =>
    obtain ⟨line, heq⟩ : ∃ line : List VgaCall, picUnmaskAll ticks =
        some ([.outb pic1Data 0x00, .outb pic2Data 0x00] ++ line.map .vga) := ⟨_, rfl⟩
    obtain rfl := Option.some.inj (heq.symm.trans hacts)
    rw [portWrites_append, portWrites_vga, List.append_nil]
    obtain ⟨hsetUp, hlines⟩ := h.write_masks 0x00
    refine ⟨hsetUp, Finset.eq_univ_of_forall fun j => (hlines j).mpr ?_⟩
    have hclear : ∀ k < 8, byteBit 0x00 k = false := by decide
    exact hclear _ (Nat.mod_lt _ (by omega))

/-- **One event**, seen from the controllers. -/
theorem PicStep.setUp (h : PicStep logDebug s e s') (hs : s.pics.SetUp) :
    s'.pics.SetUp ∧ s'.pics.enabled = e.lines s.pics.enabled := by
  cases h with
  | call hacts hrun =>
    rw [(Pc.run_pics hrun).1]
    exact PicCall.acts_setUp hs hacts
  | print hrun =>
    rw [(Pc.run_pics hrun).1]
    exact ⟨hs, rfl⟩
  | raise n =>
    dsimp only
    unfold Cascade.raise
    split_ifs
    · exact ⟨⟨hs.master.with_lines, hs.slave⟩, Cascade.enabled_congr rfl rfl⟩
    · exact ⟨⟨hs.master, hs.slave.with_lines⟩, Cascade.enabled_congr rfl rfl⟩
  | lower n =>
    dsimp only
    unfold Cascade.lower
    split_ifs
    · exact ⟨⟨hs.master.with_lines, hs.slave⟩, Cascade.enabled_congr rfl rfl⟩
    · exact ⟨⟨hs.master, hs.slave.with_lines⟩, Cascade.enabled_congr rfl rfl⟩
  | take hack => exact hs.acknowledge hack
  | spurious => exact ⟨hs, rfl⟩
  | spuriousSlave =>
    exact ⟨⟨hs.master.serve_setUp 2, hs.slave⟩, Cascade.enabled_congr rfl rfl⟩

/-- **Any events**, seen from the controllers. -/
theorem Run.pics_setUp (h : Run (PicStep logDebug) s events s') (hs : s.pics.SetUp) :
    s'.pics.SetUp ∧ s'.pics.enabled = linesAfter events s.pics.enabled := by
  induction h with
  | nil => exact ⟨hs, rfl⟩
  | snoc _ hop ih =>
    obtain ⟨hsetUp, hlines⟩ := hop.setUp ih.1
    refine ⟨hsetUp, ?_⟩
    rw [hlines, ih.2, linesAfter, linesAfter, List.foldl_append]
    rfl

/-! ## From the first `pic_init` on -/

/-- `pic_init`, from any state. -/
theorem PicStep.of_init (h : PicStep logDebug s (.call .init) s') :
    s'.pics =
      ⟨remapped 0x20 0x04 s.pics.master.mask, remapped 0x28 0x02 s.pics.slave.mask⟩ := by
  cases h with
  | call hacts hrun =>
    obtain ⟨start, done, heq⟩ := picInit_eq s.pics.inb logDebug s.machine.ticks
    obtain rfl := Option.some.inj (heq.symm.trans hacts)
    rw [(Pc.run_pics hrun).1, portWrites_append, portWrites_append, portWrites_vga,
      portWrites_vga, List.nil_append, List.append_nil, after_picRemap]
    rfl

/-- A spurious interrupt has the vector of line 7 of its controller. -/
theorem Cascade.SetUp.spurious_vector (h : p.SetUp) :
    p.spurious.1 = 39 ∧ p.spuriousSlave.1 = 47 := by
  rw [Cascade.spurious, Cascade.spuriousSlave, Controller.vector, Controller.vector,
    h.master.offset, h.slave.offset]
  exact ⟨rfl, rfl⟩

/-- Every call returns when the console is not locked. -/
theorem exists_picCall (logDebug : LogDebug) (c : PicCall) (hlock : s.machine.locked = false) :
    ∃ s', PicStep logDebug s (.call c) s' ∧ s'.machine.locked = false := by
  have hdefined : ∃ acts, c.acts s.pics.inb logDebug s.machine.ticks = some acts := by
    cases c <;> exact ⟨_, rfl⟩
  obtain ⟨acts, hacts⟩ := hdefined
  obtain ⟨s', hrun⟩ := Pc.run_returns acts hlock
  exact ⟨s', .call hacts hrun, (Pc.run_pics hrun).2.1.trans hlock⟩

/-- A controller in the middle of something else. -/
def strayController (mask : UInt8) : Controller where
  next := .wiring
  single := true
  needsMode := false
  offset := 8
  wiring := 0
  mode := 2
  mask := mask
  raised := Finset.univ.filter fun n => n.val = 3
  serving := Finset.univ.filter fun n => n.val = 0

/-- Two of them, with the timer's line not masked. -/
def strayPc : Pc := ⟨⟨strayController 0xFE, strayController 0xFF⟩, freshMachine⟩

/-- **The masks are a set of lines.**  In every run that begins with a `pic_init`, in any state
of the controllers, the lines that are not masked are those of the start with what the masking
functions have added and taken away since, in their order. -/
theorem masks_are_lines (logDebug : LogDebug) (s t : Pc) (events : List PicEvent)
    (hrun : Run (PicStep logDebug) s (.call .init :: events) t) :
    t.pics.enabled = linesAfter events s.pics.enabled := by
  rw [← List.singleton_append] at hrun
  obtain ⟨s', hinit, hevents⟩ := hrun.split
  have hpics := hinit.of_single.of_init
  have hsetUp : s'.pics.SetUp := hpics ▸ ⟨remapped_setUp _ _ _, remapped_setUp _ _ _⟩
  rw [(hevents.pics_setUp hsetUp).2]
  congr 1
  rw [hpics]
  exact Cascade.enabled_congr rfl rfl

/-- Line 9 is added and the timer's line taken away, while a device raises line 3. -/
theorem masks_are_lines_short : ∃ t,
    Run (PicStep OsKernel.logDebug) strayPc
      [.call .init, .call (.unmaskIrq 9), .raise 3, .call (.maskIrq 0)] t ∧
    t.pics.enabled = {9} := by
  obtain ⟨s₁, hinit, hlock₁⟩ := @exists_picCall strayPc OsKernel.logDebug .init rfl
  obtain ⟨s₂, hunmask, hlock₂⟩ := exists_picCall OsKernel.logDebug (.unmaskIrq 9) hlock₁
  obtain ⟨s₃, hmask, -⟩ := @exists_picCall { s₂ with pics := s₂.pics.raise 3 }
    OsKernel.logDebug (.maskIrq 0) hlock₂
  have hrun : Run (PicStep OsKernel.logDebug) strayPc
      [.call .init, .call (.unmaskIrq 9), .raise 3, .call (.maskIrq 0)] s₃ :=
    (((Run.nil.snoc hinit).snoc hunmask).snoc (.raise 3)).snoc hmask
  refine ⟨s₃, hrun, ?_⟩
  rw [masks_are_lines _ _ _ _ hrun]
  rfl

end OsKernel
