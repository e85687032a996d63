import Mathlib.Order.Interval.Finset.Nat
import OsKernel.InterruptDelivery

/-! # Lines that are used up

The interrupts of all devices but the timer and the keyboard go to the generic handler, which
takes the interrupted `eax` for their vector.  As long as `eax` does not happen to hold one,
the line stays in service, and only more urgent lines get through from then on.
-/
namespace OsKernel

variable {s t : IrqState} {e : IrqEvent} {events : List IrqEvent} {acts : List Act}
  {steps rest : List Micro} {x : Micro} {p : Cascade} {vector errCode : UInt32}
  {i : Interrupted} {ticks : UInt64} {v : UInt8} {table : HandlerTable}

/-! ## What is taken -/

/-- The interrupted `eax` does not happen to be the vector of a hardware interrupt. -/
def Interrupted.QuietEax (i : Interrupted) : Prop := i.cpu.eax < 32 ∨ 47 < i.cpu.eax

/-- So it is, whenever something is interrupted. -/
def IrqEvent.QuietEax : IrqEvent → Prop
  | .take _ i => i.QuietEax
  | .spurious _ i => i.QuietEax
  | .exception _ _ i => i.QuietEax
  | _ => True

/-- The lines of the master that interrupts other than those of the timer and the keyboard
came in on. -/
def otherLines (vs : List UInt8) : List Nat := (vs.filter isOther).map masterLine

/-- The lines that were taken are in service, the most urgent one last, and what the running
handler still sends is for another line. -/
structure UsedUp (vs : List UInt8) (s : IrqState) : Prop where
  ordered : (otherLines vs).Pairwise (· > ·)
  range : ∀ l ∈ otherLines vs, 2 ≤ l
  serving : ∀ l ∈ otherLines vs, ∃ k ∈ s.pc.pics.master.serving, k.val = l
  handler : ∀ steps, s.handler = some steps → stepWrites steps = [] ∨
    stepWrites steps = [eoiMaster] ∧ ∃ k ∈ s.pc.pics.master.serving, k.val < 2

theorem unhandledEois_quiet (h : i.QuietEax) : unhandledEois i.cpu.eax = [] := by
  rw [unhandledEois, if_neg]
  rintro ⟨hlow, hhigh⟩
  rcases h with h | h
  · exact absurd hlow (UInt32.not_le.mpr h)
  · exact absurd hhigh (UInt32.not_le.mpr h)

/-- The generic handler sends nothing then. -/
theorem stepWrites_unhandled (hquiet : i.QuietEax) (hother : table vector.toNat = some .unhandled)
    (hacts : handlerActs table vector errCode i ticks = some acts) :
    stepWrites (acts.flatMap Act.micros) = [] := by
  rw [stepWrites_micros, (handlerActs_serves hacts).writes, hother]
  exact unhandledEois_quiet hquiet

variable {vs : List UInt8}

theorem takenVectors_append (events events' : List IrqEvent) :
    takenVectors (events ++ events') = takenVectors events ++ takenVectors events' :=
  List.filterMap_append

theorem otherLines_concat (vs : List UInt8) (v : UInt8) :
    otherLines (vs ++ [v]) = otherLines vs ++ if isOther v then [masterLine v] else [] := by
  rw [otherLines, List.filter_append, List.map_append, otherLines, List.filter_singleton]
  cases isOther v <;> rfl

/-- What stays in service. -/
theorem UsedUp.mono (h : UsedUp vs s)
    (hserving : ∀ k ∈ s.pc.pics.master.serving, 2 ≤ k.val → k ∈ t.pc.pics.master.serving)
    (hhandler : ∀ steps, t.handler = some steps → stepWrites steps = [] ∨
      stepWrites steps = [eoiMaster] ∧ ∃ k ∈ t.pc.pics.master.serving, k.val < 2) :
    UsedUp vs t := by
  refine ⟨h.ordered, h.range, fun l hl => ?_, hhandler⟩
  obtain ⟨k, hk, rfl⟩ := h.serving l hl
  exact ⟨k, hserving k hk (h.range _ hl), rfl⟩

/-- What the handler of a taken interrupt sends. -/
theorem stepWrites_take (hs : Tabled table) (hquiet : i.QuietEax) {k : Fin 8}
    (hvector : k = 0 ∧ v = 32 ∨ k = 1 ∧ v = 33 ∨ OtherVector v k)
    (hacts : handlerActs table v.toUInt32 0 i ticks = some acts) :
    stepWrites (acts.flatMap Act.micros) = [] ∨
      stepWrites (acts.flatMap Act.micros) = [eoiMaster] ∧ k.val < 2 := by
  have hwrites := (handlerActs_serves hacts).writes
  rcases hvector with ⟨rfl, rfl⟩ | ⟨rfl, rfl⟩ | hother
  · refine .inr ⟨?_, by decide⟩
    rw [stepWrites_micros, hwrites]
    change ((table 32).getD .unhandled).eois _ = _
    rw [hs.other 32 (by decide) (by decide)]
    rfl
  · rcases hs.keyboard with hkey | hkey
    · exact .inl (stepWrites_unhandled hquiet hkey hacts)
    · refine .inr ⟨?_, by decide⟩
      rw [stepWrites_micros, hwrites]
      change ((table 33).getD .unhandled).eois _ = _
      rw [hkey]
      rfl
  · have hlt : v.toUInt32.toNat < 256 := v.toNat_lt
    have hne : v.toUInt32.toNat ≠ 33 := by
      intro heq
      have h33 : v = 33 := UInt8.toNat.inj heq
      rw [h33] at hother
      exact absurd hother.other (by decide)
    exact .inl (stepWrites_unhandled hquiet
      ((hs.other _ hlt hne).trans (congrArg some hother.handler)) hacts)

/-- **A line that is taken** is more urgent than those before it, and stays in service. -/
theorem UsedUp.take (h : UsedUp vs s) (hs : Delivers 1 s)
    (hack : s.pc.pics.acknowledge = some (v, p)) (hquiet : i.QuietEax)
    (hacts : handlerActs s.table v.toUInt32 0 i s.pc.machine.ticks = some acts) :
    UsedUp (vs ++ [v])
      { s with pc.pics := p, handler := some (acts.flatMap Act.micros) } := by
  obtain ⟨k, hrequest, hserving, hvector⟩ := hs.setUp.take_cases hack
  have hless : ∀ l ∈ otherLines vs, k.val < l := by
    intro l hl
    obtain ⟨k', hk', rfl⟩ := h.serving l hl
    exact Fin.lt_def.mp ((Controller.request_eq_some.mp hrequest).2.2.2.1 k' hk')
  have hkept : ∀ l ∈ otherLines vs, ∃ k' ∈ p.master.serving, k'.val = l := by
    intro l hl
    obtain ⟨k', hk', heq⟩ := h.serving l hl
    exact ⟨k', hserving ▸ Finset.mem_insert_of_mem hk', heq⟩
  have hself : k ∈ p.master.serving := hserving ▸ Finset.mem_insert_self k _
  have hsends : ∀ steps, some (acts.flatMap Act.micros) = some steps → stepWrites steps = [] ∨
      stepWrites steps = [eoiMaster] ∧ ∃ k ∈ p.master.serving, k.val < 2 := by
    intro steps hsome
    obtain rfl := Option.some.inj hsome
    exact (stepWrites_take hs.table hquiet hvector hacts).imp_right
      fun hurgent => ⟨hurgent.1, k, hself, hurgent.2⟩
  have hlines : otherLines (vs ++ [v]) = otherLines vs ∨
      otherLines (vs ++ [v]) = otherLines vs ++ [k.val] ∧ 2 ≤ k.val := by
    rw [otherLines_concat]
    rcases hvector with ⟨-, rfl⟩ | ⟨-, rfl⟩ | hother
    · exact .inl (List.append_nil _)
    · exact .inl (List.append_nil _)
    · rw [hother.other, if_pos rfl, hother.master]
      exact .inr ⟨rfl, hother.line⟩
  rcases hlines with hlines | ⟨hlines, hlarge⟩
  · rw [← hlines] at hkept
    exact ⟨hlines ▸ h.ordered, hlines ▸ h.range, hkept, hsends⟩
  · refine ⟨?_, ?_, ?_, hsends⟩
    · rw [hlines]
      refine List.pairwise_append.mpr
        ⟨h.ordered, List.pairwise_singleton _ _, fun l hl l' hl' => ?_⟩
      obtain rfl := List.mem_singleton.mp hl'
      exact hless l hl
    · rw [hlines]
      exact List.forall_mem_append.mpr ⟨h.range, List.forall_mem_singleton.mpr hlarge⟩
    · rw [hlines]
      exact List.forall_mem_append.mpr
        ⟨hkept, List.forall_mem_singleton.mpr ⟨k, hself, rfl⟩⟩

theorem UsedUp.of_same (h : UsedUp vs s)
    (hserving : t.pc.pics.master.serving = s.pc.pics.master.serving)
    (hhandler : t.handler = s.handler) : UsedUp vs t := by
  refine h.mono (fun k hk _ => hserving ▸ hk) fun steps hbusy => ?_
  rw [hserving]
  exact h.handler steps (hhandler ▸ hbusy)

/-- The generic handler begins. -/
theorem UsedUp.unhandled (h : UsedUp vs s)
    (hserving : s.pc.pics.master.serving ⊆ p.master.serving) (hquiet : i.QuietEax)
    (hother : s.table vector.toNat = some .unhandled)
    (hacts : handlerActs s.table vector errCode i ticks = some acts) :
    UsedUp vs { s with pc.pics := p, handler := some (acts.flatMap Act.micros) } := by
  refine h.mono (fun k hk _ => hserving hk) fun steps hsome => .inl ?_
  obtain rfl := Option.some.inj hsome
  exact stepWrites_unhandled hquiet hother hacts

/-- One step of a handler. -/
theorem UsedUp.act {pc : Pc} (h : UsedUp vs s) (hbusy : s.handler = some (x :: rest))
    (hpics : pc.pics = s.pc.pics.after (stepWrites [x])) :
    UsedUp vs { s with pc := pc, handler := some rest } := by
  have hsends := h.handler _ hbusy
  rw [stepWrites_cons] at hsends
  rcases hsends with hnone | ⟨hone, k, hk, hurgent⟩
  · obtain ⟨hhead, htail⟩ := List.append_eq_nil_iff.mp hnone
    rw [hhead] at hpics
    refine h.mono (fun k hk _ => hpics ▸ hk) fun steps hsome => .inl ?_
    obtain rfl := Option.some.inj hsome
    exact htail
  · rcases List.append_eq_singleton_iff.mp hone with ⟨hhead, htail⟩ | ⟨hhead, htail⟩
    · rw [hhead] at hpics
      refine h.mono (fun k hk _ => hpics ▸ hk) fun steps hsome => .inr ?_
      obtain rfl := Option.some.inj hsome
      exact ⟨htail, k, hpics ▸ hk, hurgent⟩
    · rw [hhead] at hpics
      have hserving : pc.pics.master.serving = dropFirst s.pc.pics.master.serving := by
        rw [hpics]
        rfl
      refine h.mono (fun j hj hlarge => ?_) fun steps hsome => .inl ?_
      · rw [hserving]
        exact mem_dropFirst_of_lt hj hk (Fin.lt_def.mpr (by omega))
      · obtain rfl := Option.some.inj hsome
        exact htail

theorem UsedUp.append_none (h : UsedUp vs s) : UsedUp (vs ++ (none : Option UInt8).toList) s :=
  (List.append_nil vs).symm ▸ h

/-- **Every event keeps the account of the lines that are used up.** -/
theorem UsedUp.step (h : UsedUp vs s) (hs : Delivers 1 s) (hstep : IrqStep s e t)
    (hquiet : e.QuietEax) : UsedUp (vs ++ e.taken.toList) t := by
  cases hstep with
  | take hidle hack hacts => exact h.take hs hack hquiet hacts
  | raise n => exact UsedUp.append_none (h.of_same (sameService_raise _ n).master rfl)
  | lower n => exact UsedUp.append_none (h.of_same (sameService_lower _ n).master rfl)
  | spurious hidle hacts =>
    rw [hs.setUp.spurious_vector.1] at hacts
    have hother : s.table (39 : UInt8).toUInt32.toNat = some .unhandled :=
      hs.table.other 39 (by decide) (by decide)
    exact UsedUp.append_none (h.unhandled (Finset.Subset.refl _) hquiet hother hacts)
  | spuriousSlave hidle hacts =>
    rw [hs.setUp.spurious_vector.2] at hacts
    have hserving : s.pc.pics.master.serving ⊆ s.pc.pics.spuriousSlave.2.master.serving := by
      rw [Cascade.spuriousSlave, hs.setUp.master.serve]
      exact Finset.subset_insert 2 _
    have hother : s.table (47 : UInt8).toUInt32.toNat = some .unhandled :=
      hs.table.other 47 (by decide) (by decide)
    exact UsedUp.append_none (h.unhandled hserving hquiet hother hacts)
  | exception hidle hvector hacts =>
    exact UsedUp.append_none (h.unhandled (Finset.Subset.refl _) hquiet
      (hs.table.unhandled_of_exception hvector.1 hacts) hacts)
  | handler hbusy hrun => exact UsedUp.append_none (h.act hbusy (Pc.step_pics hrun).1)
  | iret hdone =>
    exact UsedUp.append_none (h.mono (fun k hk _ => hk)
      fun steps hsome => some_ne_idle hsome.symm)
  | handlerSpins | mainSpins | call | keyboardInit => exact UsedUp.append_none (h.of_same rfl rfl)
  | main hidle hbusy hrun =>
    have hsame := sameService_main hs.setUp (hs.main _ (hbusy ▸ List.mem_cons_self))
    rw [← (Pc.step_pics hrun).1] at hsame
    exact UsedUp.append_none (h.of_same hsame.master rfl)

theorem usedUp_of_run {m : Machine} {mask1 mask2 : UInt8}
    (hrun : Run IrqStep (bootedIrq m mask1 mask2) events s)
    (hquiet : ∀ e ∈ events, e.QuietEax) : UsedUp (takenVectors events) s := by
  induction hrun with
  | nil =>
    exact ⟨.nil, fun l hl => absurd hl List.not_mem_nil, fun l hl => absurd hl List.not_mem_nil,
      fun acts hsome => absurd hsome.symm (Option.some_ne_none acts)⟩
  | @snoc events s t e hbefore hstep ih =>
    obtain ⟨hevents, hlast⟩ := List.forall_mem_append.mp hquiet
    have hvectors : takenVectors (events ++ [e]) = takenVectors events ++ e.taken.toList := by
      rw [takenVectors_append, takenVectors, takenVectors]
      cases htaken : e.taken with
      | none => rw [List.filterMap_cons_none htaken]; rfl
      | some v => rw [List.filterMap_cons_some htaken]; rfl
    rw [hvectors]
    exact (ih hevents).step (hbefore.delivers (delivers_bootedIrq m mask1 mask2)) hstep
      (hlast e (List.mem_singleton_self e))

/-- **The other lines are used up.**  In every run from the end of `idt_init` on, with
exceptions of the main line, in which no interrupted `eax` holds the vector of a hardware
interrupt, the interrupts of all lines but the timer's and the keyboard's that the CPU takes
come in on lines of the master each more urgent than those before, and are six at most. -/
theorem other_lines_used_up (m : Machine) (mask1 mask2 : UInt8) (events : List IrqEvent)
    (s : IrqState) (hrun : Run IrqStep (bootedIrq m mask1 mask2) events s)
    (hquiet : ∀ e ∈ events, e.QuietEax) :
    (otherLines (takenVectors events)).Pairwise (· > ·) ∧
      (otherLines (takenVectors events)).length ≤ 6 := by
  have h := usedUp_of_run hrun hquiet
  refine ⟨h.ordered, ?_⟩
  have hnodup : (otherLines (takenVectors events)).Nodup := h.ordered.imp ne_of_gt
  have hrange : (otherLines (takenVectors events)).toFinset ⊆ Finset.Ico 2 8 := by
    intro l hl
    have hl := List.mem_toFinset.mp hl
    obtain ⟨k, -, hk⟩ := h.serving l hl
    exact Finset.mem_Ico.mpr ⟨h.range l hl, hk ▸ k.isLt⟩
  calc (otherLines (takenVectors events)).length
      = (otherLines (takenVectors events)).toFinset.card :=
        (List.toFinset_card_of_nodup hnodup).symm
    _ ≤ (Finset.Ico 2 8).card := Finset.card_le_card hrange
    _ = 6 := rfl

/-- The printer's interrupt has used up line 7, and a serial port's line 3. -/
theorem other_lines_used_up_two : ∃ events s,
    Run IrqStep (bootedIrq freshMachine 0 0) events s ∧
    otherLines (takenVectors events) = [7, 3] ∧
    ([7, 3] : List Nat).Pairwise (· > ·) ∧ ([7, 3] : List Nat).length ≤ 6 := by
  have hprinter : ((bootedIrq freshMachine 0 0).pc.pics.raise 7).acknowledge =
      some (39, servingPics {7}) := by decide
  have hserial : ((servingPics {7}).raise 3).acknowledge = some (35, servingPics {3, 7}) := by
    decide
  have hraise₁ : Run IrqStep (bootedIrq freshMachine 0 0) [.raise 7] _ := Run.nil.snoc (.raise 7)
  obtain ⟨steps₁, s₁, hsteps₁, hrun₁, hs₁, hidle₁, hmain₁, hpics₁⟩ := exists_served_unhandled
    (hraise₁.delivers (delivers_bootedIrq freshMachine 0 0)) rfl rfl (by decide) hprinter
  have hraise₂ : Run IrqStep s₁ [.raise 3] _ := Run.nil.snoc (.raise 3)
  obtain ⟨steps₂, s₂, hsteps₂, hrun₂, -⟩ := exists_served_unhandled (hraise₂.delivers hs₁) hidle₁
    hmain₁ (by decide) (hpics₁ ▸ hserial)
  have hrun := (hraise₁.append hrun₁).append (hraise₂.append hrun₂)
  have hquiet : ∀ steps : List IrqEvent, (∀ e ∈ steps, e = .handler ∨ e = .iret) →
      takenVectors steps = [] ∧ ∀ e ∈ steps, e.QuietEax := by
    intro steps hsteps
    refine ⟨List.filterMap_eq_nil_iff.mpr fun e he => ?_, fun e he => ?_⟩
    · rcases hsteps e he with rfl | rfl <;> rfl
    · rcases hsteps e he with rfl | rfl <;> trivial
  obtain ⟨hvectors₁, hquiet₁⟩ := hquiet steps₁ hsteps₁
  obtain ⟨hvectors₂, hquiet₂⟩ := hquiet steps₂ hsteps₂
  have hidle : idleInterrupted.QuietEax := .inl (by decide)
  have hquiets : ∀ e ∈ ([.raise 7] ++ ([.take 39 idleInterrupted] ++ steps₁)) ++
      ([.raise 3] ++ ([.take 35 idleInterrupted] ++ steps₂)), e.QuietEax := by
    simp only [List.forall_mem_append, List.forall_mem_singleton]
    exact ⟨⟨trivial, hidle, hquiet₁⟩, trivial, hidle, hquiet₂⟩
  have hvectors : takenVectors (([.raise 7] ++ ([.take 39 idleInterrupted] ++ steps₁)) ++
      ([.raise 3] ++ ([.take 35 idleInterrupted] ++ steps₂))) = [39, 35] := by
    simp only [takenVectors_append, hvectors₁, hvectors₂]
    rfl
  have hused := other_lines_used_up _ _ _ _ _ hrun hquiets
  rw [hvectors] at hused
  exact ⟨_, _, hrun, congrArg otherLines hvectors, hused⟩

end OsKernel
