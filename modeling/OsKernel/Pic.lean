import Mathlib.Tactic.IntervalCases
import OsKernel.InterruptController
import OsKernel.Pit
import OsKernel.PmmBitmap

/-! # The interrupt controllers of the machine (`pic/pic.c`)

`pic_init` moves the sixteen hardware interrupts away from the vectors of the CPU's
exceptions, whatever state the two controllers are in, and leaves their masks as they were.
From then on the masks are a set of lines, and nothing but the four masking functions changes
it: not the devices, not the CPU taking an interrupt, not its acknowledgement, and not another
`pic_init`.

The controllers themselves are not code of the kernel; `Cascade.write` connects them to the
ports that `pic.c` writes.
-/
namespace OsKernel

/-! ## The functions -/

/-- `ICW1_INIT` -/
def icw1Init : UInt8 := 0x11

/-- `ICW4_8086` -/
def icw4Mode8086 : UInt8 := 0x01

/-- `io_wait` -/
def ioWait : Act := .outb 0x80 0x00

/-- What `pic_init` does between its first and its last line of log. -/
def picRemap (logDebug : LogDebug) (mask1 mask2 : UInt8) : List Act :=
  let debug (fmt : String) (args : List Arg) : List Act := (logDebug (cString fmt) args).map .vga
  let masks : List Arg := [.int mask1.toUInt32, .int mask2.toUInt32]
  debug "  Saved Master PIC mask: 0x%x, Slave PIC mask: 0x%x" masks ++
  debug "  Sending ICW1 to Master PIC (0x%x) and Slave PIC (0x%x)"
    [.int icw1Init.toUInt32, .int icw1Init.toUInt32] ++
  [.outb pic1Cmd icw1Init, ioWait, .outb pic2Cmd icw1Init, ioWait] ++
  -- the vector offsets
  debug "  Setting Master PIC offset to 0x20 (vector 32)" [] ++
  [.outb pic1Data 0x20, ioWait] ++
  debug "  Setting Slave PIC offset to 0x28 (vector 40)" [] ++
  [.outb pic2Data 0x28, ioWait] ++
  -- the cascade
  debug "  Configuring Master PIC cascade (slave on IRQ2)" [] ++
  [.outb pic1Data 0x04, ioWait] ++
  debug "  Configuring Slave PIC identity (cascade identity = 2)" [] ++
  [.outb pic2Data 0x02, ioWait] ++
  debug "  Setting 8086 mode for both PICs (0x%x)" [.int icw4Mode8086.toUInt32] ++
  [.outb pic1Data icw4Mode8086, ioWait, .outb pic2Data icw4Mode8086, ioWait] ++
  [.outb pic1Data mask1, .outb pic2Data mask2] ++
  debug "  Restored Master PIC mask: 0x%x, Slave PIC mask: 0x%x" masks

/-- `pic_init` -/
def picInit (inb : UInt16 → UInt8) (logDebug : LogDebug) (ticks : UInt64) :
    Option (List Act) := do
  let start ← logInfo ticks (cString "Initializing 8259 PICs...") []
  let mask1 := inb pic1Data
  let mask2 := inb pic2Data
  let done ← logInfo ticks (cString "8259 PICs initialized and remapped.") []
  return start.map .vga ++ picRemap logDebug mask1 mask2 ++ done.map .vga

/-- `pic_mask_irq` -/
def picMaskIrq (inb : UInt16 → UInt8) (logDebug : LogDebug) (irq : UInt8) : List Act :=
  let port := if irq < 8 then pic1Data else pic2Data
  let irq := if irq < 8 then irq else irq - 8
  let value := ((inb port).toUInt32 ||| (1 <<< irq.toUInt32)).toUInt8
  .outb port value ::
    (logDebug (cString "  Masked IRQ%d. PIC mask for port 0x%x: 0x%x")
      [.int irq.toUInt32, .int port.toUInt32, .int value.toUInt32]).map .vga

/-- `pic_mask_all` -/
def picMaskAll (ticks : UInt64) : Option (List Act) := do
  let line ← logInfo ticks (cString "All IRQs on PICs masked.") []
  return [.outb pic1Data 0xFF, .outb pic2Data 0xFF] ++ line.map .vga

/-- `pic_unmask_all` -/
def picUnmaskAll (ticks : UInt64) : Option (List Act) := do
  let line ← logInfo ticks (cString "All IRQs on PICs unmasked (use with caution).") []
  return [.outb pic1Data 0x00, .outb pic2Data 0x00] ++ line.map .vga

/-! ## The ports -/

/-- A byte at a port. -/
def Cascade.write (p : Cascade) (w : PortWrite) : Cascade :=
  if w.port = pic1Cmd then { p with master := p.master.command w.value }
  else if w.port = pic1Data then { p with master := p.master.data w.value }
  else if w.port = pic2Cmd then { p with slave := p.slave.command w.value }
  else if w.port = pic2Data then { p with slave := p.slave.data w.value }
  else p

/-- The controllers after the bytes `out`. -/
def Cascade.after (p : Cascade) (out : List PortWrite) : Cascade := out.foldl Cascade.write p

/-- `inb` at a data port is the mask; nothing else answers. -/
def Cascade.inb (p : Cascade) (port : UInt16) : UInt8 :=
  if port = pic1Data then p.master.mask else if port = pic2Data then p.slave.mask else 0xFF

/-- The machine and its interrupt controllers. -/
structure Pc where
  pics : Cascade
  machine : Machine

/-- Actions, with what they send to the controllers. -/
def Pc.run (acts : List Act) (s : Pc) : Option Pc := do
  let m ← runActs acts s.machine
  return ⟨s.pics.after (m.out.drop s.machine.out.length), m⟩

/-- The bytes that actions send to ports, those of the console apart. -/
def portWrites (acts : List Act) : List PortWrite :=
  acts.filterMap fun
    | .outb port value => some ⟨port, value⟩
    | _ => none

variable {p : Cascade} {m m' : Machine} {s s' : Pc} {acts acts' : List Act} {logDebug : LogDebug}
  {ticks : UInt64} {n : Fin 16} {v : UInt8}

theorem Cascade.after_append (p : Cascade) (out out' : List PortWrite) :
    p.after (out ++ out') = (p.after out).after out' := List.foldl_append

theorem Cascade.after_cons (p : Cascade) (w : PortWrite) (out : List PortWrite) :
    p.after (w :: out) = (p.write w).after out := rfl

theorem portWrites_append (acts acts' : List Act) :
    portWrites (acts ++ acts') = portWrites acts ++ portWrites acts' := List.filterMap_append

@[simp] theorem portWrites_vga (calls : List VgaCall) : portWrites (calls.map .vga) = [] := by
  rw [portWrites, List.filterMap_map]
  exact List.filterMap_eq_nil_iff.mpr fun _ _ => rfl

/-- The console does not use the ports of the controllers. -/
theorem Cascade.write_console {w : PortWrite} (hw : w.port = 0x3D4 ∨ w.port = 0x3D5) :
    p.write w = p := by
  have hother : w.port ≠ pic1Cmd ∧ w.port ≠ pic1Data ∧ w.port ≠ pic2Cmd ∧ w.port ≠ pic2Data := by
    rcases hw with hw | hw
    · rw [hw]
      decide
    · rw [hw]
      decide
  obtain ⟨h1, h2, h3, h4⟩ := hother
  rw [Cascade.write, if_neg h1, if_neg h2, if_neg h3, if_neg h4]

theorem Cascade.after_console {out : List PortWrite}
    (hout : ∀ w ∈ out, w.port = 0x3D4 ∨ w.port = 0x3D5) : p.after out = p := by
  induction out with
  | nil => rfl
  | cons w out ih =>
    obtain ⟨hw, hout⟩ := List.forall_mem_cons.mp hout
    rw [Cascade.after_cons, Cascade.write_console hw]
    exact ih hout

/-- **One action**, seen from the controllers. -/
theorem Act.run_writes {a : Act} (h : a.run m = some m') :
    m'.locked = m.locked ∧ ∃ out, m'.out = m.out ++ out ∧
      ∀ p : Cascade, p.after out = p.after (portWrites [a]) := by
  cases a with
  | vga call =>
    have honly := VgaCall.consoleOnly_of_run h
    obtain ⟨out, hout, hports⟩ := honly.out
    exact ⟨honly.locked, out, hout, fun p => Cascade.after_console hports⟩
  | outb port value =>
    obtain rfl := Option.some.inj h
    exact ⟨rfl, _, rfl, fun p => rfl⟩
  | tick =>
    obtain rfl := Option.some.inj h
    exact ⟨rfl, [], (List.append_nil _).symm, fun p => rfl⟩

/-- **Actions**, seen from the controllers. -/
theorem runActs_writes (h : runActs acts m = some m') :
    m'.locked = m.locked ∧ ∃ out, m'.out = m.out ++ out ∧
      ∀ p : Cascade, p.after out = p.after (portWrites acts) := by
  induction acts generalizing m with
  | nil =>
    obtain rfl := Option.some.inj h
    exact ⟨rfl, [], (List.append_nil _).symm, fun p => rfl⟩
  | cons a acts ih =>
    rw [runActs, List.foldlM_cons, Option.bind_eq_bind, Option.bind_eq_some_iff] at h
    obtain ⟨m₁, ha, hacts⟩ := h
    obtain ⟨hlock₁, out₁, hout₁, hafter₁⟩ := Act.run_writes ha
    obtain ⟨hlock, out, hout, hafter⟩ := ih hacts
    refine ⟨hlock.trans hlock₁, out₁ ++ out, ?_, fun p => ?_⟩
    · rw [hout, hout₁, List.append_assoc]
    · rw [Cascade.after_append, hafter₁, hafter, ← Cascade.after_append, ← portWrites_append]
      rfl

/-- Nothing that a handler or a driver does is stuck while the lock is free. -/
theorem runActs_returns (acts : List Act) (hlock : m.locked = false) :
    ∃ m', runActs acts m = some m' := by
  induction acts generalizing m with
  | nil => exact ⟨m, rfl⟩
  | cons a acts ih =>
    obtain ⟨m₁, ha⟩ : ∃ m₁, a.run m = some m₁ := by
      cases a with
      | vga call =>
        obtain ⟨m₁, hrun, -⟩ := call.run_consoleOnly hlock
        exact ⟨m₁, hrun⟩
      | outb port value => exact ⟨_, rfl⟩
      | tick => exact ⟨_, rfl⟩
    obtain ⟨m', hacts⟩ := ih ((Act.run_writes ha).1.trans hlock)
    refine ⟨m', ?_⟩
    rw [runActs, List.foldlM_cons, Option.bind_eq_bind, ha, Option.bind_some]
    exact hacts

/-- **What a run of actions does to the controllers** is in the bytes it sends. -/
theorem Pc.run_pics (h : s.run acts = some s') :
    s'.pics = s.pics.after (portWrites acts) ∧ s'.machine.locked = s.machine.locked ∧
      runActs acts s.machine = some s'.machine := by
  rw [Pc.run, Option.bind_eq_bind, Option.bind_eq_some_iff] at h
  obtain ⟨m, hrun, heq⟩ := h
  obtain rfl := Option.some.inj heq
  obtain ⟨hlock, out, hout, hafter⟩ := runActs_writes hrun
  refine ⟨?_, hlock, hrun⟩
  dsimp only
  rw [hout, List.drop_left, hafter]

theorem Pc.run_returns (acts : List Act) (hlock : s.machine.locked = false) :
    ∃ s', s.run acts = some s' := by
  obtain ⟨m, hrun⟩ := runActs_returns acts hlock
  refine ⟨⟨s.pics.after (m.out.drop s.machine.out.length), m⟩, ?_⟩
  rw [Pc.run, hrun, Option.bind_eq_bind, Option.bind_some]
  rfl

/-! ## Starting the controllers over -/

/-- A controller as `pic_init` leaves it. -/
def remapped (offset wiring mask : UInt8) : Controller where
  next := .mask
  single := false
  needsMode := true
  offset := offset
  wiring := wiring
  mode := icw4Mode8086
  mask := mask
  raised := ∅
  serving := ∅

theorem portWrites_picRemap (logDebug : LogDebug) (mask1 mask2 : UInt8) :
    portWrites (picRemap logDebug mask1 mask2) =
      [⟨pic1Cmd, icw1Init⟩, ⟨0x80, 0⟩, ⟨pic2Cmd, icw1Init⟩, ⟨0x80, 0⟩, ⟨pic1Data, 0x20⟩, ⟨0x80, 0⟩,
        ⟨pic2Data, 0x28⟩, ⟨0x80, 0⟩, ⟨pic1Data, 0x04⟩, ⟨0x80, 0⟩, ⟨pic2Data, 0x02⟩, ⟨0x80, 0⟩,
        ⟨pic1Data, icw4Mode8086⟩, ⟨0x80, 0⟩, ⟨pic2Data, icw4Mode8086⟩, ⟨0x80, 0⟩,
        ⟨pic1Data, mask1⟩, ⟨pic2Data, mask2⟩] := by
  rw [picRemap]
  simp only [portWrites_append, portWrites_vga]
  rfl

/-- The bytes of `pic_init` set both controllers up from any state. -/
theorem after_picRemap (p : Cascade) (logDebug : LogDebug) (mask1 mask2 : UInt8) :
    p.after (portWrites (picRemap logDebug mask1 mask2)) =
      ⟨remapped 0x20 0x04 mask1, remapped 0x28 0x02 mask2⟩ := by
  rw [portWrites_picRemap]
  rfl

theorem picInit_eq (inb : UInt16 → UInt8) (logDebug : LogDebug) (ticks : UInt64) :
    ∃ start done : List VgaCall, picInit inb logDebug ticks = some (start.map .vga ++
      picRemap logDebug (inb pic1Data) (inb pic2Data) ++ done.map .vga) :=
  ⟨_, _, rfl⟩

theorem Controller.mem_enabled_iff {c : Controller} {i : Fin 8} :
    i ∈ c.enabled ↔ byteBit c.mask i = false := by
  rw [Controller.mem_enabled, byteBit, ← BitVec.testBit_toNat]
  rfl

/-- A line is enabled if its bit in the mask of its controller is clear. -/
theorem Cascade.mem_enabled_iff :
    n ∈ p.enabled ↔ byteBit (p.controllerOf n).mask (n.val % 8) = false := by
  rw [Cascade.enabled, Finset.mem_filter, and_iff_right (Finset.mem_univ n),
    Controller.mem_enabled_iff]
  rfl

theorem shiftedBit {k : Nat} (hk : k < 8) :
    ((1 : UInt32) <<< (UInt8.ofNat k).toUInt32).toUInt8 = 1 <<< UInt8.ofNat k := by
  interval_cases k <;> decide

/-- The arithmetic of `pic_mask_irq` on an `int` is that on bytes. -/
theorem maskValue (x : UInt8) {k : Nat} (hk : k < 8) :
    (x.toUInt32 ||| (1 <<< (UInt8.ofNat k).toUInt32)).toUInt8 = x ||| (1 <<< UInt8.ofNat k) := by
  rw [UInt32.toUInt8_or, UInt8.toUInt8_toUInt32, shiftedBit hk]

theorem unmaskValue (x : UInt8) {k : Nat} (hk : k < 8) :
    (x.toUInt32 &&& ~~~(1 <<< (UInt8.ofNat k).toUInt32)).toUInt8 =
      x &&& ~~~(1 <<< UInt8.ofNat k) := by
  rw [UInt32.toUInt8_and, UInt32.toUInt8_not, UInt8.toUInt8_toUInt32, shiftedBit hk]

/-- The port of the mask of a line. -/
def maskPort (n : Fin 16) : UInt16 := if n.val < 8 then pic1Data else pic2Data

theorem Cascade.inb_maskPort (p : Cascade) (n : Fin 16) :
    p.inb (maskPort n) = (p.controllerOf n).mask := by
  unfold maskPort Cascade.controllerOf
  split_ifs <;> rfl

/-- How the functions find the port and the bit of a line. -/
theorem lineArgument (n : Fin 16) :
    (if UInt8.ofNat n < 8 then pic1Data else pic2Data) = maskPort n ∧
      (if UInt8.ofNat n < 8 then UInt8.ofNat n else UInt8.ofNat n - 8) =
        UInt8.ofNat (n.val % 8) := by
  revert n
  decide

theorem portWrites_picMaskIrq (p : Cascade) (logDebug : LogDebug) (n : Fin 16) :
    portWrites (picMaskIrq p.inb logDebug (UInt8.ofNat n)) =
      [⟨maskPort n, (p.controllerOf n).mask ||| (1 <<< UInt8.ofNat (n.val % 8))⟩] := by
  have hbit : n.val % 8 < 8 := Nat.mod_lt _ (by omega)
  rw [picMaskIrq]
  simp only [(lineArgument n).1, (lineArgument n).2]
  rw [← List.singleton_append, portWrites_append, portWrites_vga, List.append_nil,
    maskValue _ hbit, Cascade.inb_maskPort]
  rfl

theorem portWrites_picUnmaskIrq (p : Cascade) (logDebug : LogDebug) (n : Fin 16) :
    portWrites (picUnmaskIrq p.inb logDebug (UInt8.ofNat n)) =
      [⟨maskPort n, (p.controllerOf n).mask &&& ~~~(1 <<< UInt8.ofNat (n.val % 8))⟩] := by
  have hbit : n.val % 8 < 8 := Nat.mod_lt _ (by omega)
  rw [picUnmaskIrq]
  simp only [(lineArgument n).1, (lineArgument n).2]
  rw [← List.singleton_append, portWrites_append, portWrites_vga, List.append_nil,
    unmaskValue _ hbit, Cascade.inb_maskPort]
  rfl

/-! ## Set up -/

/-- A controller that has been told its offset and its wiring, and has its interrupts ended by
the kernel. -/
structure Controller.SetUp (c : Controller) (offset wiring : UInt8) : Prop where
  next : c.next = .mask
  offset : c.offset = offset
  wiring : c.wiring = wiring
  mode : c.mode = icw4Mode8086

/-- Both controllers as `pic_init` sets them up, with any masks and any lines. -/
structure Cascade.SetUp (p : Cascade) : Prop where
  master : p.master.SetUp 0x20 0x04
  slave : p.slave.SetUp 0x28 0x02

theorem remapped_setUp (offset wiring mask : UInt8) :
    (remapped offset wiring mask).SetUp offset wiring := ⟨rfl, rfl, rfl, rfl⟩

variable {c : Controller} {offset wiring : UInt8} {i : Fin 8}

theorem Controller.SetUp.data (h : c.SetUp offset wiring) (v : UInt8) :
    c.data v = { c with mask := v } := by
  rw [Controller.data, h.next]

theorem Controller.SetUp.serve (h : c.SetUp offset wiring) (i : Fin 8) :
    c.serve i = { c with raised := c.raised.erase i, serving := insert i c.serving } := by
  have hmode : ¬ c.mode &&& 0x02 ≠ 0 := by
    rw [h.mode]
    decide
  rw [Controller.serve, if_neg hmode]

theorem Cascade.SetUp.joined (h : p.SetUp) : p.joined = true := by
  rw [Cascade.joined, h.master.wiring, h.slave.wiring]
  rfl

/-- A mask reaches the controller of its line. -/
theorem Cascade.SetUp.write_mask (h : p.SetUp) (n : Fin 16) (v : UInt8) :
    p.write ⟨maskPort n, v⟩ =
      if n.val < 8 then { p with master.mask := v } else { p with slave.mask := v } := by
  unfold maskPort
  split_ifs with hn
  · change { p with master := p.master.data v } = _
    rw [h.master.data]
  · change { p with slave := p.slave.data v } = _
    rw [h.slave.data]

/-- **The lines that are not masked, after a new mask.** -/
theorem Cascade.SetUp.mem_enabled_write (h : p.SetUp) {j : Fin 16} :
    j ∈ (p.write ⟨maskPort n, v⟩).enabled ↔
      if j.val < 8 ↔ n.val < 8 then byteBit v (j.val % 8) = false else j ∈ p.enabled := by
  rw [Cascade.mem_enabled_iff, Cascade.mem_enabled_iff, h.write_mask]
  unfold Cascade.controllerOf
  by_cases hn : n.val < 8 <;> by_cases hj : j.val < 8 <;> simp [hn, hj]

/-- Lines of one controller that share their bit are one. -/
theorem line_ext {j n : Fin 16} (hside : j.val < 8 ↔ n.val < 8) (hbit : n.val % 8 = j.val % 8) :
    j = n := Fin.ext (by omega)

/-- **`pic_mask_irq` takes one line away.** -/
theorem Cascade.SetUp.enabled_mask (h : p.SetUp) (n : Fin 16) :
    (p.write ⟨maskPort n, (p.controllerOf n).mask ||| (1 <<< UInt8.ofNat (n.val % 8))⟩).enabled =
      p.enabled.erase n := by
  ext j
  rw [h.mem_enabled_write, Finset.mem_erase, Cascade.mem_enabled_iff]
  have hj : j.val % 8 < 8 := Nat.mod_lt _ (by omega)
  have hn : n.val % 8 < 8 := Nat.mod_lt _ (by omega)
  split_ifs with hside
  · have hsame : p.controllerOf n = p.controllerOf j := by
      unfold Cascade.controllerOf
      simp only [hside]
    rw [byteBit_set _ hn hj, Bool.or_eq_false_iff, decide_eq_false_iff_not, hsame, and_comm]
    exact and_congr_left fun _ =>
      not_congr ⟨fun hbit => line_ext hside hbit, fun heq => by rw [heq]⟩
  · have hne : j ≠ n := fun heq => hside (by rw [heq])
    exact (and_iff_right hne).symm

/-- **`pic_unmask_irq` adds one line.** -/
theorem Cascade.SetUp.enabled_unmask (h : p.SetUp) (n : Fin 16) :
    (p.write ⟨maskPort n,
      (p.controllerOf n).mask &&& ~~~(1 <<< UInt8.ofNat (n.val % 8))⟩).enabled =
      insert n p.enabled := by
  ext j
  rw [h.mem_enabled_write, Finset.mem_insert, Cascade.mem_enabled_iff]
  have hj : j.val % 8 < 8 := Nat.mod_lt _ (by omega)
  have hn : n.val % 8 < 8 := Nat.mod_lt _ (by omega)
  split_ifs with hside
  · have hsame : p.controllerOf n = p.controllerOf j := by
      unfold Cascade.controllerOf
      simp only [hside]
    rw [byteBit_clear _ hn hj, Bool.and_eq_false_iff, Bool.not_eq_false', decide_eq_true_iff,
      hsame, or_comm]
    exact or_congr_left ⟨fun hbit => line_ext hside hbit, fun heq => by rw [heq]⟩
  · have hne : j ≠ n := fun heq => hside (by rw [heq])
    exact (or_iff_right hne).symm

end OsKernel
