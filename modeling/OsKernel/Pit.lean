import OsKernel.InterruptEoi

/-! # The timer chip (`pit/pit.c`, `pic/pic.c`)

`pit_init` sends the divisor of the base frequency to channel 0 of the timer chip, as two
bytes, and keeps the frequency it computes from the divisor.  `PitCounter` is channel 0 with
what is sent to its ports.  A divisor has 16 bits only from 19 Hz on: below, the chip gets
another one, and runs faster than the kernel believes.

`log_debug` is an empty function of `kernel/stubs.c` (`logDebug`).  What is proved here does not
depend on that: it may print anything.
-/
namespace OsKernel

/-! ## Programming the chip -/

/-- `PIT_BASE_FREQ` -/
def pitBaseFreq : UInt32 := 1193182

/-- `PIT_MIN_FREQ` -/
def pitMinFreq : UInt32 := 19

/-- `PIT_MAX_FREQ` -/
def pitMaxFreq : UInt32 := 1193182

/-- `PIT_DATA_CH0` -/
def pitDataCh0 : UInt16 := 0x40

/-- `PIT_CMD` -/
def pitCmd : UInt16 := 0x43

/-- `PIT_CMD_BINARY_MODE3` -/
def pitCmdBinaryMode3 : UInt8 := 0x36

/-- `PIC1_DATA` -/
def pic1Data : UInt16 := 0x21

/-- `PIC2_DATA` -/
def pic2Data : UInt16 := 0xA1

/-- What a function like `log_debug` prints. -/
abbrev LogDebug := List UInt8 → List Arg → List VgaCall

/-- `log_debug`, the stub of `kernel/stubs.c` -/
def logDebug : LogDebug := fun _ _ => []

/-- `pic_unmask_irq` -/
def picUnmaskIrq (inb : UInt16 → UInt8) (logDebug : LogDebug) (irq : UInt8) : List Act :=
  let port := if irq < 8 then pic1Data else pic2Data
  let irq := if irq < 8 then irq else irq - 8
  let value := ((inb port).toUInt32 &&& ~~~(1 <<< irq.toUInt32)).toUInt8
  .outb port value ::
    (logDebug (cString "  Unmasked IRQ%d. PIC mask for port 0x%x: 0x%x")
      [.int irq.toUInt32, .int port.toUInt32, .int value.toUInt32]).map .vga

/-- The machine and `current_pit_hz`. -/
structure Timer where
  machine : Machine
  currentPitHz : UInt32

/-- `hz`, capped. -/
def cappedHz (hz : UInt32) : UInt32 := if hz > pitMaxFreq then pitMaxFreq else hz

/-- `divisor` -/
def pitDivisor (hz : UInt32) : UInt32 :=
  let divisor := pitBaseFreq / cappedHz hz
  if divisor = 0 then 1 else divisor

/-- The warning of `pit_init` about a low frequency. -/
def pitWarnLow (ticks : UInt64) (hz : UInt32) : Option (List VgaCall) :=
  if hz < pitMinFreq then
    logWarn ticks (cString "PIT: Requested frequency %d Hz is very low (min recommended %d Hz).")
      [.int hz, .int pitMinFreq]
  else some []

/-- The warning of `pit_init` about a frequency that it caps. -/
def pitWarnHigh (ticks : UInt64) (hz : UInt32) : Option (List VgaCall) :=
  if hz > pitMaxFreq then
    logWarn ticks
      (bytes "PIT: Requested frequency %d Hz exceeds maximum theoretical frequency %d Hz." ++
        cString " Capping.") [.int hz, .int pitMaxFreq]
  else some []

/-- What `pit_init` does once it has printed its intentions. -/
def pitProgram (inb : UInt16 → UInt8) (logDebug : LogDebug) (divisor : UInt32) : List Act :=
  let lsb := (divisor &&& 0xFF).toUInt8
  let msb := ((divisor >>> 8) &&& 0xFF).toUInt8
  (logDebug (bytes "PIT: Writing command byte 0x%x to port 0x%x " ++
      cString "(Channel 0, Mode 3, LSB/MSB access).")
    [.int pitCmdBinaryMode3.toUInt32, .int pitCmd.toUInt32]).map .vga ++
  .outb pitCmd pitCmdBinaryMode3 ::
  ((logDebug (cString "PIT: Writing divisor LSB (0x%x) to port 0x%x.")
    [.int lsb.toUInt32, .int pitDataCh0.toUInt32]).map .vga ++
  .outb pitDataCh0 lsb ::
  ((logDebug (cString "PIT: Writing divisor MSB (0x%x) to port 0x%x.")
    [.int msb.toUInt32, .int pitDataCh0.toUInt32]).map .vga ++
  .outb pitDataCh0 msb ::
  ((logDebug (cString "PIT: Unmasking IRQ0 on PIC to allow timer interrupts.") []).map .vga ++
  picUnmaskIrq inb logDebug 0)))

/-- `pit_init`; `none` when it does not return. -/
def pitInit (inb : UInt16 → UInt8) (logDebug : LogDebug) (hz : UInt32) (t : Timer) :
    Option Timer :=
  let ticks := t.machine.ticks
  if hz = 0 then do
    let line ← logError ticks
      (cString "PIT: Attempted to set frequency to 0 Hz. Aborting initialization.") []
    let m ← runActs (line.map .vga) t.machine
    return { t with machine := m }
  else do
    let low ← pitWarnLow ticks hz
    let high ← pitWarnHigh ticks hz
    let divisor := pitDivisor hz
    let currentPitHz := pitBaseFreq / divisor
    let start ← logInfo ticks
      (cString "PIT: Initializing with desired frequency %d Hz (actual %d Hz, divisor %d).")
      [.int (cappedHz hz), .int currentPitHz, .int divisor]
    let done ← logInfo ticks (cString "PIT: Timer initialized and IRQ0 unmasked.") []
    let m ← runActs ((low ++ high ++ start).map .vga ++ pitProgram inb logDebug divisor ++
      done.map .vga) t.machine
    return ⟨m, currentPitHz⟩

/-- `pit_get_frequency` -/
def pitGetFrequency (t : Timer) : UInt32 := t.currentPitHz

/-! ## The chip -/

/-- The number of clock ticks that two bytes ask for; 0 stands for 65536. -/
def reloadValue (lsb msb : UInt8) : Nat :=
  if msb.toNat * 256 + lsb.toNat = 0 then 65536 else msb.toNat * 256 + lsb.toNat

/-- Channel 0: the low byte it has got, while it waits for the high byte, and the reload
value. -/
structure PitCounter where
  low : Option UInt8
  reload : Nat

/-- A byte at a port: the command starts over, and then the bytes come in pairs. -/
def PitCounter.write (counter : PitCounter) (w : PortWrite) : PitCounter :=
  if w.port = pitCmd then
    if w.value = pitCmdBinaryMode3 then { counter with low := none } else counter
  else if w.port = pitDataCh0 then
    match counter.low with
    | none => { counter with low := some w.value }
    | some lsb => ⟨none, reloadValue lsb w.value⟩
  else counter

/-- The channel after the bytes `out`. -/
def PitCounter.after (counter : PitCounter) (out : List PortWrite) : PitCounter :=
  out.foldl PitCounter.write counter

/-- Between `m` and `m'` the channel sees these bytes, and the lock is as it was. -/
structure Sends (ws : List PortWrite) (m m' : Machine) : Prop where
  locked : m'.locked = m.locked
  counter : ∀ counter : PitCounter, counter.after m'.out = (counter.after m.out).after ws

variable {m m' m'' : Machine} {ws ws' : List PortWrite} {acts : List Act} {hz : UInt32}
  {inb : UInt16 → UInt8} {logDebug : LogDebug}

theorem PitCounter.after_append (counter : PitCounter) (out out' : List PortWrite) :
    counter.after (out ++ out') = (counter.after out).after out' := List.foldl_append

theorem Sends.trans (h : Sends ws m m') (h' : Sends ws' m' m'') : Sends (ws ++ ws') m m'' :=
  ⟨h'.locked.trans h.locked, fun counter => by
    rw [h'.counter, h.counter, PitCounter.after_append]⟩

/-- A port that is not the timer's. -/
theorem PitCounter.write_other (counter : PitCounter) {w : PortWrite} (hcmd : w.port ≠ pitCmd)
    (hdata : w.port ≠ pitDataCh0) : counter.write w = counter := by
  rw [PitCounter.write, if_neg hcmd, if_neg hdata]

/-- **The console** does not use the ports of the timer. -/
theorem ConsoleOnly.sends (h : ConsoleOnly m m') : Sends [] m m' := by
  obtain ⟨out, hout, hports⟩ := h.out
  have hidle : ∀ (out : List PortWrite) (counter : PitCounter),
      (∀ w ∈ out, w.port = 0x3D4 ∨ w.port = 0x3D5) → counter.after out = counter := by
    intro out counter hports
    induction out with
    | nil => rfl
    | cons w out ih =>
      obtain ⟨hw, hout⟩ := List.forall_mem_cons.mp hports
      have hne : w.port ≠ pitCmd ∧ w.port ≠ pitDataCh0 := by
        rcases hw with hw | hw
        · rw [hw]
          decide
        · rw [hw]
          decide
      rw [PitCounter.after, List.foldl_cons, counter.write_other hne.1 hne.2]
      exact ih hout
  refine ⟨h.locked, fun counter => ?_⟩
  rw [hout, PitCounter.after_append, hidle out _ hports]
  rfl

/-- Acts that come to their end when the console is not locked, and the bytes they send. -/
def ActsSend (ws : List PortWrite) (acts : List Act) : Prop :=
  ∀ m : Machine, m.locked = false → ∃ m', runActs acts m = some m' ∧ Sends ws m m'

theorem actsSend_vga (calls : List VgaCall) : ActsSend [] (calls.map .vga) := by
  intro m hlock
  obtain ⟨m', hrun⟩ := runActs_vga_returns calls hlock
  exact ⟨m', hrun, (runActs_vga_consoleOnly hrun).sends⟩

theorem actsSend_outb (port : UInt16) (value : UInt8) :
    ActsSend [⟨port, value⟩] [.outb port value] :=
  fun m _ => ⟨_, rfl, rfl, fun counter => counter.after_append m.out [⟨port, value⟩]⟩

theorem ActsSend.append {acts' : List Act} (h : ActsSend ws acts) (h' : ActsSend ws' acts') :
    ActsSend (ws ++ ws') (acts ++ acts') := by
  intro m hlock
  obtain ⟨m₁, hrun, hsends⟩ := h m hlock
  obtain ⟨m', hrun', hsends'⟩ := h' m₁ (hsends.locked.trans hlock)
  refine ⟨m', ?_, hsends.trans hsends'⟩
  rw [runActs_append, hrun]
  exact hrun'

/-- **What `pit_init` sends**: the command, the divisor and a mask for the interrupt
controller. -/
theorem pitProgram_sends (inb : UInt16 → UInt8) (logDebug : LogDebug) (divisor : UInt32) :
    ∃ mask, ActsSend [⟨pitCmd, pitCmdBinaryMode3⟩, ⟨pitDataCh0, (divisor &&& 0xFF).toUInt8⟩,
      ⟨pitDataCh0, ((divisor >>> 8) &&& 0xFF).toUInt8⟩, ⟨pic1Data, mask⟩]
      (pitProgram inb logDebug divisor) := by
  have hstage : ∀ {ws acts} (calls : List VgaCall) (port : UInt16) (value : UInt8),
      ActsSend ws acts →
        ActsSend (⟨port, value⟩ :: ws) (calls.map .vga ++ .outb port value :: acts) :=
    fun calls port value h => (actsSend_vga calls).append ((actsSend_outb port value).append h)
  exact ⟨_, hstage _ _ _ (hstage _ _ _ (hstage _ _ _ (hstage _ _ _ (actsSend_vga _))))⟩

/-- The chip takes the two bytes for its reload value. -/
theorem reload_after (counter : PitCounter) (lsb msb mask : UInt8) :
    (counter.after [⟨pitCmd, pitCmdBinaryMode3⟩, ⟨pitDataCh0, lsb⟩, ⟨pitDataCh0, msb⟩,
      ⟨pic1Data, mask⟩]).reload = reloadValue lsb msb := rfl

/-! ## Frequencies -/

theorem reloadValue_divisor (divisor : UInt32) :
    reloadValue (divisor &&& 0xFF).toUInt8 ((divisor >>> 8) &&& 0xFF).toUInt8 =
      if divisor.toNat % 65536 = 0 then 65536 else divisor.toNat % 65536 := by
  have hlow : ((divisor &&& 0xFF).toUInt8).toNat = divisor.toNat % 256 := by
    rw [UInt32.toNat_toUInt8, UInt32.toNat_and]
    change (divisor.toNat &&& (2 ^ 8 - 1)) % 2 ^ 8 = _
    rw [Nat.and_two_pow_sub_one_eq_mod]
    omega
  have hhigh : (((divisor >>> 8) &&& 0xFF).toUInt8).toNat = divisor.toNat / 256 % 256 := by
    rw [UInt32.toNat_toUInt8, UInt32.toNat_and, UInt32.toNat_shiftRight,
      Nat.shiftRight_eq_div_pow]
    change (divisor.toNat / 2 ^ 8 &&& (2 ^ 8 - 1)) % 2 ^ 8 = _
    rw [Nat.and_two_pow_sub_one_eq_mod]
    omega
  rw [reloadValue, hlow, hhigh]
  have hsplit : divisor.toNat / 256 % 256 * 256 + divisor.toNat % 256 = divisor.toNat % 65536 := by
    omega
  rw [hsplit]

theorem cappedHz_toNat (hz : UInt32) : (cappedHz hz).toNat = min hz.toNat 1193182 := by
  rw [cappedHz]
  split_ifs with hcap
  · exact (min_eq_right (Nat.le_of_lt (UInt32.lt_iff_toNat_lt.mp hcap))).symm
  · exact (min_eq_left (Nat.not_lt.mp (mt UInt32.lt_iff_toNat_lt.mpr hcap))).symm

theorem pitDivisor_toNat (hhz : hz ≠ 0) :
    (pitDivisor hz).toNat = 1193182 / min hz.toNat 1193182 := by
  have hpos : 0 < hz.toNat := Nat.pos_of_ne_zero fun h => hhz (UInt32.toNat_inj.mp h)
  have hquot : (pitBaseFreq / cappedHz hz).toNat = 1193182 / min hz.toNat 1193182 := by
    rw [UInt32.toNat_div, cappedHz_toNat]
    rfl
  have hne : pitBaseFreq / cappedHz hz ≠ 0 := by
    intro h
    have hone : 1 ≤ 1193182 / min hz.toNat 1193182 :=
      (Nat.one_le_div_iff (by omega)).mpr (Nat.min_le_right _ _)
    rw [h] at hquot
    exact absurd hone (hquot ▸ by decide)
  rw [pitDivisor, if_neg hne, hquot]

/-- **Two divisions**: a frequency is rounded up when it is computed from its divisor. -/
theorem le_div_div {n h : Nat} (hpos : 0 < h) (hle : h ≤ n) : h ≤ n / (n / h) := by
  have hdiv : 0 < n / h := Nat.div_pos hle hpos
  exact (Nat.le_div_iff_mul_le hdiv).mpr (Nat.mul_div_le n h)

/-- **Which frequencies have a divisor of 16 bits.** -/
theorem reload_div_iff {h : Nat} (hpos : 0 < h) (hle : h ≤ 1193182) :
    1193182 / (1193182 / h) = 1193182 /
      (if 1193182 / h % 65536 = 0 then 65536 else 1193182 / h % 65536) ↔ 19 ≤ h := by
  by_cases hlow : 19 ≤ h
  · refine iff_of_true ?_ hlow
    have hdiv : 1193182 / h ≤ 1193182 / 19 := Nat.div_le_div_left hlow (by decide)
    have hone : 0 < 1193182 / h := Nat.div_pos hle hpos
    rw [Nat.mod_eq_of_lt (by omega), if_neg (Nat.pos_iff_ne_zero.mp hone)]
  · have hsmall : ∀ h < 19, 0 < h → 1193182 / (1193182 / h) ≠ 1193182 /
        (if 1193182 / h % 65536 = 0 then 65536 else 1193182 / h % 65536) := by decide
    exact iff_of_false (hsmall h (Nat.not_le.mp hlow) hpos) hlow

/-- **`pit_init` returns**, with the frequency of its divisor, when the console is not
locked. -/
theorem pitInit_returns (inb : UInt16 → UInt8) (logDebug : LogDebug) (t : Timer) (hhz : hz ≠ 0)
    (hlock : t.machine.locked = false) :
    ∃ m' mask, pitInit inb logDebug hz t = some ⟨m', pitBaseFreq / pitDivisor hz⟩ ∧
      Sends [⟨pitCmd, pitCmdBinaryMode3⟩, ⟨pitDataCh0, (pitDivisor hz &&& 0xFF).toUInt8⟩,
        ⟨pitDataCh0, ((pitDivisor hz >>> 8) &&& 0xFF).toUInt8⟩, ⟨pic1Data, mask⟩]
        t.machine m' := by
  have hlow : ∃ low, pitWarnLow t.machine.ticks hz = some low := by
    unfold pitWarnLow
    split_ifs <;> exact ⟨_, rfl⟩
  have hhigh : ∃ high, pitWarnHigh t.machine.ticks hz = some high := by
    unfold pitWarnHigh
    split_ifs <;> exact ⟨_, rfl⟩
  have hstart : ∃ start, logInfo t.machine.ticks
      (cString "PIT: Initializing with desired frequency %d Hz (actual %d Hz, divisor %d).")
      [.int (cappedHz hz), .int (pitBaseFreq / pitDivisor hz), .int (pitDivisor hz)] =
        some start := ⟨_, rfl⟩
  have hdone : ∃ done, logInfo t.machine.ticks
      (cString "PIT: Timer initialized and IRQ0 unmasked.") [] = some done := ⟨_, rfl⟩
  obtain ⟨low, hlow⟩ := hlow
  obtain ⟨high, hhigh⟩ := hhigh
  obtain ⟨start, hstart⟩ := hstart
  obtain ⟨done, hdone⟩ := hdone
  obtain ⟨mask, hprogram⟩ := pitProgram_sends inb logDebug (pitDivisor hz)
  obtain ⟨m', hrun, hsends⟩ := ((actsSend_vga (low ++ high ++ start)).append hprogram).append
    (actsSend_vga done) t.machine hlock
  refine ⟨m', mask, ?_, hsends⟩
  rw [pitInit, if_neg hhz, hlow, hhigh]
  simp only [Option.bind_eq_bind, Option.bind_some, hstart, hdone, hrun]
  rfl

/-- A request for 0 Hz changes neither the chip nor the reported frequency. -/
theorem pitInit_zero (t : Timer) (hlock : t.machine.locked = false) :
    ∃ m', pitInit inb logDebug 0 t = some ⟨m', t.currentPitHz⟩ ∧ Sends [] t.machine m' := by
  have hline : ∃ line, logError t.machine.ticks
      (cString "PIT: Attempted to set frequency to 0 Hz. Aborting initialization.") [] =
        some line := ⟨_, rfl⟩
  obtain ⟨line, hline⟩ := hline
  obtain ⟨m', hrun, hsends⟩ := actsSend_vga line t.machine hlock
  refine ⟨m', ?_, hsends⟩
  rw [pitInit, if_pos rfl]
  simp only [Option.bind_eq_bind, hline, Option.bind_some, hrun]
  rfl

/-- **When the reported frequency is the programmed one.**  For any `hz` that is not 0,
`pit_init` returns, and what it sends to channel 0 makes a reload value `D`.  The reported
frequency is 1193182 / D, at least 1 and not below `hz` or the base frequency, exactly when
`hz` is at least 19.  The two bounds hold for any `hz`. -/
theorem pit_frequency_iff (counter : PitCounter) (inb : UInt16 → UInt8) (logDebug : LogDebug)
    (t : Timer) (hz : UInt32) (hhz : hz ≠ 0) (hlock : t.machine.locked = false) :
    ∃ t', pitInit inb logDebug hz t = some t' ∧
      ((pitGetFrequency t').toNat = 1193182 / (counter.after t'.machine.out).reload ∧
          1 ≤ (pitGetFrequency t').toNat ∧ min hz.toNat 1193182 ≤ (pitGetFrequency t').toNat ↔
        19 ≤ hz.toNat) ∧
      1 ≤ (pitGetFrequency t').toNat ∧ min hz.toNat 1193182 ≤ (pitGetFrequency t').toNat := by
  obtain ⟨m', mask, hinit, hsends⟩ := pitInit_returns inb logDebug t hhz hlock
  have hpos : 0 < hz.toNat := Nat.pos_of_ne_zero fun h => hhz (UInt32.toNat_inj.mp h)
  have hcap : 0 < min hz.toNat 1193182 := lt_min hpos (by decide)
  have hfreq : (pitBaseFreq / pitDivisor hz).toNat =
      1193182 / (1193182 / min hz.toNat 1193182) := by
    rw [UInt32.toNat_div, pitDivisor_toNat hhz]
    rfl
  have hreload : (counter.after m'.out).reload =
      if 1193182 / min hz.toNat 1193182 % 65536 = 0 then 65536
      else 1193182 / min hz.toNat 1193182 % 65536 := by
    rw [hsends.counter, reload_after, reloadValue_divisor, pitDivisor_toNat hhz]
  have hge := le_div_div hcap (Nat.min_le_right hz.toNat 1193182)
  have hiff := reload_div_iff hcap (Nat.min_le_right hz.toNat 1193182)
  refine ⟨_, hinit, ?_⟩
  rw [pitGetFrequency, hfreq, hreload, hiff, Nat.le_min]
  have hone : 1 ≤ 1193182 / (1193182 / min hz.toNat 1193182) := le_trans hcap hge
  refine ⟨⟨fun h => h.1.1, fun h => ⟨⟨h, by decide⟩, hone, hge⟩⟩, hone, hge⟩

/-- 100 Hz. -/
theorem pit_frequency_100 : ∃ t', pitInit (fun _ => 0xFF) OsKernel.logDebug 100 ⟨freshMachine, 0⟩ =
      some t' ∧ (pitGetFrequency t').toNat =
        1193182 / ((⟨none, 0⟩ : PitCounter).after t'.machine.out).reload := by
  obtain ⟨t', hinit, hiff, -⟩ := pit_frequency_iff ⟨none, 0⟩ (fun _ => 0xFF) OsKernel.logDebug
    ⟨freshMachine, 0⟩ 100 (by decide) rfl
  exact ⟨t', hinit, (hiff.mpr (by decide)).1⟩

/-- At 18 Hz the chip divides by 751: it runs at 1588 Hz. -/
theorem pit_frequency_18 : ∃ t', pitInit (fun _ => 0xFF) OsKernel.logDebug 18 ⟨freshMachine, 0⟩ =
      some t' ∧ (pitGetFrequency t').toNat = 18 ∧
    ((⟨none, 0⟩ : PitCounter).after t'.machine.out).reload = 751 ∧ 1193182 / 751 = 1588 := by
  have hhz : (18 : UInt32) ≠ 0 := by decide
  obtain ⟨m', mask, hinit, hsends⟩ :=
    pitInit_returns (fun _ => 0xFF) OsKernel.logDebug ⟨freshMachine, 0⟩ hhz rfl
  have hfreq : (pitBaseFreq / pitDivisor 18).toNat = 18 := by decide
  refine ⟨_, hinit, hfreq, ?_, by decide⟩
  rw [hsends.counter, reload_after]
  decide

end OsKernel
