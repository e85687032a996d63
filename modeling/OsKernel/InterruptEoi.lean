import Mathlib.Data.List.Induction
import OsKernel.Interrupts

/-! # End of interrupt

The dispatcher and the generic handler look at the same words on the stack through two
structures.  `interrupt_frame_t` matches what the stubs push
(`readInterruptFrame_enterInterrupt`); `registers_t` lacks the `ds` word and so is one word
off (`readRegisters_enterInterrupt`).  The vector is therefore dispatched correctly, but the
generic handler takes the interrupted `eax` for the vector when it decides which interrupt
controller to acknowledge.

`eoi_discipline_iff` says for which interrupts that does not matter.
-/
namespace OsKernel

/-! ## The words on the stack -/

/-- The `i`-th word behind a pushed one is the `i`-th word of the stack before. -/
theorem wordAt_push_succ (s : Stack) (w : UInt32) {i : Nat} (hi : i < 2 ^ 28) :
    wordAt (s.push w).mem (s.push w).esp (UInt32.ofNat (i + 1)) =
      wordAt s.mem s.esp (UInt32.ofNat i) := by
  have haddr : s.esp - 4 + 4 * UInt32.ofNat (i + 1) = s.esp + 4 * UInt32.ofNat i := by
    rw [UInt32.ofNat_add]
    grind
  -- the two words are apart even when the addresses wrap around
  have hapart : (s.esp + 4 * UInt32.ofNat i).toNat + 4 ≤ (s.esp - 4).toNat ∨
      (s.esp - 4).toNat + 4 ≤ (s.esp + 4 * UInt32.ofNat i).toNat := by
    have h4 : (4 : UInt32).toNat = 4 := rfl
    have hesp := s.esp.toNat_lt
    rw [UInt32.toNat_add, UInt32.toNat_sub, UInt32.toNat_mul, UInt32.toNat_ofNat', h4]
    omega
  simp only [wordAt, Stack.push]
  rw [haddr, Memory.load_store_disjoint hapart]

theorem wordAt_push_zero (s : Stack) (w : UInt32) :
    wordAt (s.push w).mem (s.push w).esp 0 = w := by
  have hmod : w.toNat % 256 ^ 4 = w.toNat := Nat.mod_eq_of_lt w.toNat_lt
  rw [wordAt, Stack.push, UInt32.mul_zero, UInt32.add_zero, Memory.load_store, hmod,
    UInt32.ofNat_toNat]

/-- **Pushed words read back**, the last one first. -/
theorem wordAt_pushAll (s : Stack) (words : List UInt32) {i : Nat} {w : UInt32} (hi : i < 2 ^ 28)
    (hw : words.reverse[i]? = some w) :
    wordAt (s.pushAll words).mem (s.pushAll words).esp (UInt32.ofNat i) = w := by
  induction words using List.reverseRecOn generalizing i with
  | nil => simp at hw
  | append_singleton words x ih =>
    rw [Stack.pushAll, List.foldl_append]
    rw [List.reverse_append, List.reverse_singleton, List.singleton_append] at hw
    cases i with
    | zero =>
      obtain rfl : x = w := by simpa using hw
      exact wordAt_push_zero _ x
    | succ i =>
      have hi' : i < 2 ^ 28 := by omega
      exact (wordAt_push_succ _ x hi').trans (ih hi' (by simpa using hw))

/-- The words an interrupt pushes, the first one first. -/
def interruptWords (cpu : Cpu) (vector errCode : UInt32) : List UInt32 :=
  [cpu.eflags, cpu.cs, cpu.eip, if hasErrorCode vector then errCode else 0, vector,
    cpu.eax, cpu.ecx, cpu.edx, cpu.ebx, cpu.esp - 20, cpu.ebp, cpu.esi, cpu.edi, cpu.ds]

/-- With or without an error code from the CPU, the stubs build the same frame. -/
theorem enterInterrupt_eq (cpu : Cpu) (vector errCode : UInt32) (mem : Memory) :
    enterInterrupt cpu vector errCode mem =
      Stack.pushAll ⟨mem, cpu.esp⟩ (interruptWords cpu vector errCode) := by
  have hesp : cpu.esp - 4 - 4 - 4 - 4 - 4 = cpu.esp - 20 := by grind
  unfold enterInterrupt isrCommonStub isrStub cpuPush interruptWords
  cases hasErrorCode vector <;> simp [Stack.pushAll, Stack.push, hesp]

theorem wordAt_enterInterrupt (cpu : Cpu) (vector errCode : UInt32) (mem : Memory)
    {i w : UInt32} (hi : i.toNat < 2 ^ 28)
    (hw : (interruptWords cpu vector errCode).reverse[i.toNat]? = some w) :
    wordAt (enterInterrupt cpu vector errCode mem).mem (enterInterrupt cpu vector errCode mem).esp
      i = w := by
  have hword := wordAt_pushAll ⟨mem, cpu.esp⟩ (interruptWords cpu vector errCode) hi hw
  rw [UInt32.ofNat_toNat] at hword
  rw [enterInterrupt_eq]
  exact hword

/-- **The dispatcher reads what was pushed.** -/
theorem readInterruptFrame_enterInterrupt (cpu : Cpu) (vector errCode : UInt32) (mem : Memory) :
    readInterruptFrame (enterInterrupt cpu vector errCode mem).mem
        (enterInterrupt cpu vector errCode mem).esp =
      { ds := cpu.ds, edi := cpu.edi, esi := cpu.esi, ebp := cpu.ebp, esp := cpu.esp - 20,
        ebx := cpu.ebx, edx := cpu.edx, ecx := cpu.ecx, eax := cpu.eax, intNo := vector,
        errCode := if hasErrorCode vector then errCode else 0, eip := cpu.eip, cs := cpu.cs,
        eflags := cpu.eflags } := by
  simp only [readInterruptFrame, InterruptFrame.mk.injEq]
  refine ⟨?_, ?_, ?_, ?_, ?_, ?_, ?_, ?_, ?_, ?_, ?_, ?_, ?_, ?_⟩ <;>
    exact wordAt_enterInterrupt cpu vector errCode mem (by decide) rfl

/-- **The generic handler reads every field one word too early**: it sees `eax` as the vector
and the vector as the error code. -/
theorem readRegisters_enterInterrupt (cpu : Cpu) (vector errCode : UInt32) (mem : Memory) :
    readRegisters (enterInterrupt cpu vector errCode mem).mem
        (enterInterrupt cpu vector errCode mem).esp =
      { edi := cpu.ds, esi := cpu.edi, ebp := cpu.esi, esp := cpu.ebp, ebx := cpu.esp - 20,
        edx := cpu.ebx, ecx := cpu.edx, eax := cpu.ecx, intNo := cpu.eax, errCode := vector,
        eip := if hasErrorCode vector then errCode else 0, cs := cpu.eip,
        eflags := cpu.cs } := by
  simp only [readRegisters, Registers.mk.injEq]
  refine ⟨?_, ?_, ?_, ?_, ?_, ?_, ?_, ?_, ?_, ?_, ?_, ?_, ?_⟩ <;>
    exact wordAt_enterInterrupt cpu vector errCode mem (by decide) rfl

/-! ## The handler table -/

/-- The last loop of `idt_init` fills the free entries it has passed. -/
theorem fillHandlers_apply (table : HandlerTable) (n i : Nat) :
    (List.range n).foldl (fun table i =>
      if table i = none then Function.update table i (some .unhandled) else table) table i =
      if i < n then some ((table i).getD .unhandled) else table i := by
  induction n with
  | zero => rfl
  | succ n ih =>
    rw [List.range_succ, List.foldl_append]
    generalize (List.range n).foldl (fun table i =>
      if table i = none then Function.update table i (some .unhandled) else table) table = t at ih ⊢
    simp only [List.foldl_cons, List.foldl_nil]
    by_cases hi : i = n
    · subst hi
      rw [if_neg (Nat.lt_irrefl i)] at ih
      rw [if_pos (Nat.lt_succ_self i), ← ih]
      cases ht : t i with
      | none => rw [if_pos rfl, Function.update_self, Option.getD_none]
      | some h => rw [if_neg (by simp), ht, Option.getD_some]
    · have hlt : i < n + 1 ↔ i < n := by omega
      simp only [hlt, ← ih]
      split
      · exact Function.update_of_ne hi _ _
      · rfl

/-- The handler of a vector, once `idt_init` and `keyboard_init` have run. -/
def handlerOf : Nat → Handler
  | 0 => .divideByZero
  | 6 => .invalidOpcode
  | 8 => .doubleFault
  | 13 => .generalProtection
  | 14 => .pageFault
  | 32 => .irq0Timer
  | 33 => .keyboard
  | _ => .unhandled

theorem keyboardInit_idtInit_apply {i : Nat} (hi : i < 256) :
    keyboardInit idtInit i = some (handlerOf i) := by
  unfold keyboardInit idtInit idtRegisterHandler
  dsimp only
  rw [Function.update_apply, fillHandlers_apply, if_pos hi]
  simp only [Function.update_apply]
  fun_cases handlerOf i <;> simp_all

/-! ## Counting acknowledgements -/

/-- The number of end-of-interrupt commands an interrupt controller has got. -/
def eoiCount (port : UInt16) (m : Machine) : Nat := m.out.count ⟨port, picEoi⟩

/-- Between `m` and `m'`, the two interrupt controllers got this many end-of-interrupt
commands. -/
structure EoisSent (master slave : Nat) (m m' : Machine) : Prop where
  master : eoiCount pic1Cmd m' = eoiCount pic1Cmd m + master
  slave : eoiCount pic2Cmd m' = eoiCount pic2Cmd m + slave

variable {m m' m'' : Machine}

theorem EoisSent.trans {k l k' l' : Nat} (h : EoisSent k l m m') (h' : EoisSent k' l' m' m'') :
    EoisSent (k + k') (l + l') m m'' :=
  ⟨by rw [h'.master, h.master, Nat.add_assoc], by rw [h'.slave, h.slave, Nat.add_assoc]⟩

/-- Two counts for the same stretch of work agree. -/
theorem EoisSent.unique {k l k' l' : Nat} (h : EoisSent k l m m') (h' : EoisSent k' l' m m') :
    k = k' ∧ l = l' :=
  ⟨Nat.add_left_cancel (h.master.symm.trans h'.master),
    Nat.add_left_cancel (h.slave.symm.trans h'.slave)⟩

/-- Console work acknowledges nothing. -/
theorem ConsoleOnly.eoisSent (h : ConsoleOnly m m') : EoisSent 0 0 m m' := by
  obtain ⟨ws, hout, hports⟩ := h.out
  have hcount : ∀ port, port ≠ 0x3D4 → port ≠ 0x3D5 → eoiCount port m' = eoiCount port m := by
    intro port h4 h5
    have hnone : (⟨port, picEoi⟩ : PortWrite) ∉ ws := fun hmem =>
      (hports _ hmem).elim h4 h5
    rw [eoiCount, hout, List.count_append, List.count_eq_zero_of_not_mem hnone, Nat.add_zero]
    rfl
  exact ⟨hcount _ (by decide) (by decide), hcount _ (by decide) (by decide)⟩

theorem runActs_append (acts acts' : List Act) (m : Machine) :
    runActs (acts ++ acts') m = (runActs acts m).bind (runActs acts') := by
  rw [runActs, List.foldlM_append]
  rfl

theorem VgaCall.consoleOnly_of_run {call : VgaCall} (h : call.run m = some m') :
    ConsoleOnly m m' := by
  have hlock : m.locked = false := by
    cases hl : m.locked with
    | false => rfl
    | true => simp [VgaCall.run, hl] at h
  obtain ⟨m₁, hrun, honly⟩ := call.run_consoleOnly hlock
  exact Option.some.inj (hrun.symm.trans h) ▸ honly

/-- Printing that returns was console work. -/
theorem runActs_vga_consoleOnly {calls : List VgaCall} (h : runActs (calls.map .vga) m = some m') :
    ConsoleOnly m m' := by
  induction calls generalizing m with
  | nil => exact Option.some.inj h ▸ .refl m
  | cons call calls ih =>
    simp only [runActs, List.map_cons, List.foldlM_cons, Option.bind_eq_bind,
      Option.bind_eq_some_iff] at h
    obtain ⟨m₁, hcall, hrest⟩ := h
    exact (VgaCall.consoleOnly_of_run hcall).trans (ih hrest)

/-- Printing returns when the lock is free. -/
theorem runActs_vga_returns (calls : List VgaCall) (hlock : m.locked = false) :
    ∃ m', runActs (calls.map .vga) m = some m' := by
  induction calls generalizing m with
  | nil => exact ⟨m, rfl⟩
  | cons call calls ih =>
    obtain ⟨m₁, hcall, honly⟩ := call.run_consoleOnly hlock
    obtain ⟨m', hrest⟩ := ih (honly.locked.trans hlock)
    refine ⟨m', ?_⟩
    simp only [runActs, List.map_cons, List.foldlM_cons, Option.bind_eq_bind,
      Option.bind_eq_some_iff]
    exact ⟨m₁, hcall, hrest⟩

/-- How many acknowledgements the master gets for an interrupt. -/
def masterEois (vector : UInt32) : Nat := if 32 ≤ vector ∧ vector ≤ 47 then 1 else 0

/-- How many acknowledgements the slave gets for an interrupt. -/
def slaveEois (vector : UInt32) : Nat := if 40 ≤ vector ∧ vector ≤ 47 then 1 else 0

/-- `pic_send_eoi` returns and acknowledges the slave, for one of its lines, and the master. -/
theorem picSendEoi_eoisSent (irq : UInt8) (m : Machine) :
    ∃ m', runActs (picSendEoi irq) m = some m' ∧
      EoisSent 1 (if irq ≥ 8 then 1 else 0) m m' := by
  unfold picSendEoi
  by_cases hirq : irq ≥ 8
  · rw [if_pos hirq, if_pos hirq]
    refine ⟨_, rfl, ?_, ?_⟩ <;> simp [eoiCount, outb, pic1Cmd, pic2Cmd, picEoi]
  · rw [if_neg hirq, if_neg hirq]
    refine ⟨_, rfl, ?_, ?_⟩ <;> simp [eoiCount, outb, pic1Cmd, pic2Cmd, picEoi]

/-! ## The handlers -/

/-- The warning of the generic handler prints something. -/
theorem isrUnhandledInterrupt_eq (regs : Registers) (ticks : UInt64) :
    ∃ call calls, isrUnhandledInterrupt regs ticks = some ((call :: calls).map .vga ++
      if regs.intNo ≥ 32 ∧ regs.intNo ≤ 47 then picSendEoi (regs.intNo - 32).toUInt8 else []) :=
  ⟨_, _, rfl⟩

/-- What follows the printing of a handler is done when the printing returns. -/
theorem runActs_vga_append {calls : List VgaCall} {acts : List Act}
    (h : runActs (calls.map .vga ++ acts) m = some m') :
    ∃ m₁, ConsoleOnly m m₁ ∧ runActs acts m₁ = some m' := by
  rw [runActs_append, Option.bind_eq_some_iff] at h
  obtain ⟨m₁, hprint, hacts⟩ := h
  exact ⟨m₁, runActs_vga_consoleOnly hprint, hacts⟩

/-- A handler that prints does not return while the lock is held. -/
theorem runActs_vga_locked (call : VgaCall) (calls : List VgaCall) (acts : List Act)
    (hlock : m.locked = true) : runActs ((call :: calls).map .vga ++ acts) m = none := by
  have hspin : (Act.vga call).run m = none := by rw [Act.run, VgaCall.run, hlock, if_pos rfl]
  rw [List.map_cons, List.cons_append, runActs, List.foldlM_cons, hspin]
  rfl

/-- The acknowledgement of the generic handler follows its own idea of the vector. -/
theorem unhandledEoi_eoisSent (intNo : UInt32) (m : Machine) :
    ∃ m', runActs (if intNo ≥ 32 ∧ intNo ≤ 47 then picSendEoi (intNo - 32).toUInt8 else []) m =
        some m' ∧ EoisSent (masterEois intNo) (slaveEois intNo) m m' := by
  have hslave : 32 ≤ intNo ∧ intNo ≤ 47 →
      ((intNo - 32).toUInt8 ≥ 8 ↔ 40 ≤ intNo ∧ intNo ≤ 47) := by
    simp only [ge_iff_le, UInt32.le_iff_toNat_le, UInt8.le_iff_toNat_le, UInt32.toNat_toUInt8,
      UInt32.toNat_sub, UInt32.reduceToNat, UInt8.reduceToNat]
    omega
  unfold masterEois slaveEois
  by_cases hirq : 32 ≤ intNo ∧ intNo ≤ 47
  · rw [if_pos hirq, if_pos hirq]
    simp only [← hslave hirq]
    exact picSendEoi_eoisSent _ m
  · have hno : ¬(40 ≤ intNo ∧ intNo ≤ 47) := fun h =>
      hirq ⟨UInt32.le_trans (by decide) h.1, h.2⟩
    rw [if_neg hirq, if_neg hirq, if_neg hno]
    exact ⟨m, rfl, rfl, rfl⟩

/-- **The generic handler**: it returns unless the lock is held, and acknowledges the line
that `registers_t` names. -/
theorem isrUnhandledInterrupt_eoisSent (regs : Registers) (ticks : UInt64) (m : Machine) :
    ∃ acts, isrUnhandledInterrupt regs ticks = some acts ∧
      (m.locked = true → runActs acts m = none) ∧
      (m.locked = false →
        ∃ m', runActs acts m = some m' ∧
          EoisSent (masterEois regs.intNo) (slaveEois regs.intNo) m m') := by
  obtain ⟨call, calls, hacts⟩ := isrUnhandledInterrupt_eq regs ticks
  refine ⟨_, hacts, runActs_vga_locked call calls _, fun hfree => ?_⟩
  obtain ⟨m₁, hprint⟩ := runActs_vga_returns (call :: calls) hfree
  obtain ⟨m', heoi, hsent⟩ := unhandledEoi_eoisSent regs.intNo m₁
  have hsent' := (runActs_vga_consoleOnly hprint).eoisSent.trans hsent
  rw [Nat.zero_add, Nat.zero_add] at hsent'
  refine ⟨m', ?_, hsent'⟩
  rw [runActs_append, hprint]
  exact heoi

/-- The keyboard handler prints, unless a key was released, and then acknowledges the
master. -/
theorem keyboardHandler_eq (scancode : UInt8) (ticks : UInt64) :
    ∃ calls : List VgaCall, keyboardHandler scancode ticks =
        some (calls.map .vga ++ [.outb pic1Cmd picEoi]) ∧
      (calls = [] ↔ scancode &&& 0x80 ≠ 0) := by
  unfold keyboardHandler
  split
  case isTrue hrelease => exact ⟨[], rfl, by simpa using hrelease⟩
  case isFalse hpress =>
    dsimp only
    split
    · obtain ⟨call, line, hline⟩ : ∃ call line,
          logInfo ticks (cString "Key: '%c' (scancode=0x%x)")
            [.int (scancodeToAscii[scancode.toNat]?.getD 0).toUInt32, .int scancode.toUInt32] =
          some (call :: line) := ⟨_, _, rfl⟩
      refine ⟨call :: line ++ [.putChar (scancodeToAscii[scancode.toNat]?.getD 0)], ?_, ?_⟩
      · rw [hline, List.map_append, List.append_assoc]
        rfl
      · simpa using hpress
    · obtain ⟨call, line, hline⟩ : ∃ call line,
          logInfo ticks (cString "Key: (special, scancode=0x%x)") [.int scancode.toUInt32] =
          some (call :: line) := ⟨_, _, rfl⟩
      exact ⟨call :: line, by rw [hline]; rfl, by simpa using hpress⟩

theorem keyboardHandler_eoisSent {scancode : UInt8} {ticks : UInt64} {acts : List Act}
    (hacts : keyboardHandler scancode ticks = some acts) (hrun : runActs acts m = some m') :
    EoisSent 1 0 m m' := by
  obtain ⟨calls, heq, -⟩ := keyboardHandler_eq scancode ticks
  obtain rfl := Option.some.inj (heq.symm.trans hacts)
  obtain ⟨m₁, hprint, heoi⟩ := runActs_vga_append hrun
  obtain rfl := Option.some.inj heoi
  have hsent : EoisSent 1 0 m₁ (outb pic1Cmd picEoi m₁) := by
    refine ⟨?_, ?_⟩ <;> simp [eoiCount, outb, pic1Cmd, pic2Cmd, picEoi]
  exact hprint.eoisSent.trans hsent

/-! ## Every interrupt -/

/-- The dispatcher calls the handler of the vector that was pushed. -/
theorem dispatch_eq (cpu : Cpu) {vector : UInt32} (errCode : UInt32) (mem : Memory)
    (scancode : UInt8) (m : Machine) (hstub : hasStub vector) :
    dispatch (keyboardInit idtInit) cpu vector errCode mem scancode m =
      ((handlerOf vector.toNat).acts (enterInterrupt cpu vector errCode mem).mem
        (enterInterrupt cpu vector errCode mem).esp scancode m.ticks).bind (runActs · m) := by
  have hlt : vector.toNat < 256 := by
    simp only [hasStub, UInt32.le_iff_toNat_le, UInt32.reduceToNat, decide_eq_true_eq] at hstub
    omega
  simp only [dispatch, isrCommonHandler, readInterruptFrame_enterInterrupt,
    if_neg (Nat.not_le.mpr hlt), keyboardInit_idtInit_apply hlt]
  rfl

/-- The vectors with a handler of their own. -/
def hasOwnHandler (vector : UInt32) : Bool := vector ∈ [0, 6, 8, 13, 14, 32, 33]

theorem handlerOf_eq_unhandled {vector : UInt32} (h : hasOwnHandler vector = false) :
    handlerOf vector.toNat = .unhandled := by
  simp only [hasOwnHandler, List.mem_cons, List.not_mem_nil, or_false, decide_eq_false_iff_not,
    not_or, ← UInt32.toNat_inj, UInt32.reduceToNat] at h
  unfold handlerOf
  split <;> simp_all

/-- After the dispatch of `vector`, exactly the controllers that raised it are
acknowledged, once. -/
def EoiDiscipline (vector : UInt32) (m m' : Machine) : Prop :=
  EoisSent (masterEois vector) (slaveEois vector) m m'

/-- A vector with a handler of its own is acknowledged as it has to be, whatever the
registers hold. -/
theorem ownHandler_eoiDiscipline {cpu : Cpu} {vector errCode : UInt32} {mem : Memory}
    {scancode : UInt8} (hstub : hasStub vector) (hown : hasOwnHandler vector)
    (h : dispatch (keyboardInit idtInit) cpu vector errCode mem scancode m = some m') :
    EoiDiscipline vector m m' := by
  rw [dispatch_eq cpu errCode mem scancode m hstub] at h
  simp only [hasOwnHandler, List.mem_cons, List.not_mem_nil, or_false, decide_eq_true_eq] at hown
  rcases hown with rfl | rfl | rfl | rfl | rfl | rfl | rfl
  -- the handlers of exceptions do not return
  iterate 5 · cases h
  · have hrun : runActs irq0TimerHandler m = some m' := h
    obtain rfl := Option.some.inj hrun
    refine ⟨?_, ?_⟩ <;> simp [eoiCount, outb, pic1Cmd, pic2Cmd, picEoi, masterEois, slaveEois]
  · obtain ⟨acts, hacts, hrun⟩ := Option.bind_eq_some_iff.mp h
    exact keyboardHandler_eoisSent hacts hrun

/-- **The generic handler acknowledges the interrupted `eax`.**  With the lock held it does
not return. -/
theorem unhandled_dispatch {vector : UInt32} (cpu : Cpu) (errCode : UInt32) (mem : Memory)
    (scancode : UInt8) (m : Machine) (hstub : hasStub vector)
    (hother : hasOwnHandler vector = false) :
    (m.locked = true →
      dispatch (keyboardInit idtInit) cpu vector errCode mem scancode m = none) ∧
    (m.locked = false →
      ∃ m', dispatch (keyboardInit idtInit) cpu vector errCode mem scancode m = some m' ∧
        EoisSent (masterEois cpu.eax) (slaveEois cpu.eax) m m') := by
  rw [dispatch_eq cpu errCode mem scancode m hstub, handlerOf_eq_unhandled hother]
  simp only [Handler.acts, readRegisters_enterInterrupt]
  obtain ⟨acts, hacts, hspin, hreturn⟩ := isrUnhandledInterrupt_eoisSent
    { edi := cpu.ds, esi := cpu.edi, ebp := cpu.esi, esp := cpu.ebp, ebx := cpu.esp - 20,
      edx := cpu.ebx, ecx := cpu.edx, eax := cpu.ecx, intNo := cpu.eax, errCode := vector,
      eip := if hasErrorCode vector then errCode else 0, cs := cpu.eip,
      eflags := cpu.cs } m.ticks m
  rw [hacts]
  exact ⟨hspin, hreturn⟩

/-- **End-of-interrupt discipline.**  A dispatch that returns has acknowledged what it has to
exactly when the vector has a handler of its own, or the lock is held (so that it does not
return), or the interrupted `eax` happens to call for the same acknowledgements as the
vector. -/
theorem eoi_discipline_iff (cpu : Cpu) (vector errCode : UInt32) (mem : Memory)
    (scancode : UInt8) (m : Machine) (hstub : hasStub vector) :
    (∀ m', dispatch (keyboardInit idtInit) cpu vector errCode mem scancode m = some m' →
      EoiDiscipline vector m m') ↔
    (hasOwnHandler vector ∨ m.locked = true ∨
      (masterEois cpu.eax = masterEois vector ∧ slaveEois cpu.eax = slaveEois vector)) := by
  cases hown : hasOwnHandler vector with
  | true => simpa using fun m' h => ownHandler_eoiDiscipline hstub hown h
  | false =>
    obtain ⟨hspin, hreturn⟩ := unhandled_dispatch cpu errCode mem scancode m hstub hown
    cases hlock : m.locked with
    | true => simp [hspin hlock]
    | false =>
      obtain ⟨m₁, hrun, hsent⟩ := hreturn hlock
      simp only [hrun, Option.some.injEq, forall_eq', Bool.false_eq_true, false_or]
      constructor
      · intro hdisc
        exact hsent.unique hdisc
      · rintro ⟨hmaster, hslave⟩
        rw [EoiDiscipline, ← hmaster, ← hslave]
        exact hsent

/-- A CPU with nothing in its registers but a stack pointer. -/
def idleCpu : Cpu where
  eax := 0
  ecx := 0
  edx := 0
  ebx := 0
  esp := 0x9000
  ebp := 0
  esi := 0
  edi := 0
  eip := 0x100000
  cs := 0x08
  eflags := 0x202
  ds := 0x10

/-- A console nobody is using. -/
def freshMachine : Machine where
  cells := fun _ => 0
  cursorRow := 0
  cursorCol := 0
  colorByte := 0x0F
  locked := false
  ticks := 0
  out := []

/-- On `IRQ7`, an interrupted `eax` of 32 gives the right acknowledgement. -/
theorem eoi_discipline_iff_irq7 :
    ∃ m', dispatch (keyboardInit idtInit) { idleCpu with eax := 32 } 39 0 (fun _ => 0) 0
      freshMachine = some m' ∧ EoiDiscipline 39 freshMachine m' := by
  obtain ⟨m', hrun, -⟩ := (@unhandled_dispatch 39 { idleCpu with eax := 32 } 0 (fun _ => 0) 0
    freshMachine (by decide) (by decide)).2 rfl
  have hdisc := (eoi_discipline_iff { idleCpu with eax := 32 } 39 0 (fun _ => 0) 0 freshMachine
    (by decide)).mpr (.inr (.inr (by decide)))
  exact ⟨m', hrun, hdisc m' hrun⟩

/-- **`IRQ7` with an interrupted `eax` of 0 is not acknowledged at all.** -/
theorem irq7_not_acknowledged :
    ¬ ∀ (cpu : Cpu) (vector errCode : UInt32) (mem : Memory) (scancode : UInt8) (m m' : Machine),
      hasStub vector →
      dispatch (keyboardInit idtInit) cpu vector errCode mem scancode m = some m' →
      EoiDiscipline vector m m' := by
  intro hall
  obtain ⟨m', hrun, hsent⟩ := (@unhandled_dispatch 39 idleCpu 0 (fun _ => 0) 0
    freshMachine (by decide) (by decide)).2 rfl
  have hdisc := hall idleCpu 39 0 (fun _ => 0) 0 freshMachine m' (by decide) hrun
  have hcount : masterEois idleCpu.eax = masterEois 39 := (hsent.unique hdisc).1
  exact absurd hcount (by decide)

end OsKernel
