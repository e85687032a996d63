import Mathlib.Logic.Function.Basic
import Mathlib.Tactic.SplitIfs

/-! # The console (`drivers/vga/vga.c`) and the machine it drives

`Machine` holds the static variables of the console and of the clock, the
framebuffer, and every byte written to an I/O port so far.  Each console function
takes `vga_lock`, does its work and gives the lock back; its work is a list of
steps, so that an interrupt can be put between any two of them.
-/
namespace OsKernel

/-- One `outb`. -/
structure PortWrite where
  port : UInt16
  value : UInt8
  deriving DecidableEq, Repr

/-- The state the console, the clock and the interrupt controllers share. -/
structure Machine where
  cells : Nat → UInt16
  cursorRow : Nat
  cursorCol : Nat
  colorByte : UInt8
  locked : Bool
  ticks : UInt64
  out : List PortWrite

/-- `outb` -/
def outb (port : UInt16) (value : UInt8) (m : Machine) : Machine :=
  { m with out := m.out ++ [⟨port, value⟩] }

/-! ## Cells and cursor -/

/-- `VGA_WIDTH` -/
def vgaWidth : Nat := 80

/-- `VGA_HEIGHT` -/
def vgaHeight : Nat := 25

/-- `TAB_WIDTH` -/
def tabWidth : Nat := 8

/-- `vga_entry`.  A `char` is signed: it is sign-extended to 16 bits. -/
def vgaEntry (c colorByte : UInt8) : UInt16 :=
  c.toInt8.toInt16.toUInt16 ||| (colorByte.toUInt16 <<< 8)

/-- `VGA_MEMORY[index] = entry` -/
def setCell (index : Nat) (entry : UInt16) (m : Machine) : Machine :=
  { m with cells := Function.update m.cells index entry }

/-- `update_cursor` -/
def updateCursor (m : Machine) : Machine :=
  let pos := UInt16.ofNat (m.cursorRow * vgaWidth + m.cursorCol)
  outb 0x3D5 pos.toUInt8 (outb 0x3D4 15 (outb 0x3D5 (pos >>> 8).toUInt8 (outb 0x3D4 14 m)))

/-- The first loop of `scroll`: all rows move up by one.  They move in order, so a row is
read before it is overwritten. -/
def moveRowsUp (m : Machine) : Machine :=
  (List.range' 1 (vgaHeight - 1)).foldl (fun m y =>
    (List.range vgaWidth).foldl (fun m x =>
      setCell ((y - 1) * vgaWidth + x) (m.cells (y * vgaWidth + x)) m) m) m

/-- The loop that blanks row `y`, in `scroll` and in `vga_clear`. -/
def blankRow (y : Nat) (m : Machine) : Machine :=
  (List.range vgaWidth).foldl (fun m x =>
    setCell (y * vgaWidth + x) (vgaEntry 0x20 m.colorByte) m) m

/-- `scroll` -/
def scroll (m : Machine) : Machine :=
  { blankRow (vgaHeight - 1) (moveRowsUp m) with cursorRow := vgaHeight - 1 }

/-- The cursor movement of `handle_backspace`. -/
def cursorBack (m : Machine) : Machine :=
  if m.cursorCol > 0 then { m with cursorCol := m.cursorCol - 1 }
  else if m.cursorRow > 0 then { m with cursorRow := m.cursorRow - 1, cursorCol := vgaWidth - 1 }
  else m

/-- `handle_backspace` -/
def handleBackspace (m : Machine) : Machine :=
  let m := cursorBack m
  setCell (m.cursorRow * vgaWidth + m.cursorCol) (vgaEntry 0x20 m.colorByte) m

/-- `handle_tab`: on a column that is not negative, `& ~(TAB_WIDTH - 1)` rounds down to a
multiple of `TAB_WIDTH`. -/
def handleTab (m : Machine) : Machine :=
  let m := { m with cursorCol := (m.cursorCol + tabWidth) / tabWidth * tabWidth }
  if m.cursorCol ≥ vgaWidth then { m with cursorCol := 0, cursorRow := m.cursorRow + 1 } else m

/-- What `vga_put_char` and the loop of `vga_write` do with one character, before they
look at the last row. -/
def drawChar (c : UInt8) (m : Machine) : Machine :=
  if c = 0x0A then { m with cursorCol := 0, cursorRow := m.cursorRow + 1 }
  else if c = 0x08 then handleBackspace m
  else if c = 0x09 then handleTab m
  else if c = 0x0D then { m with cursorCol := 0 }
  else
    let m := setCell (m.cursorRow * vgaWidth + m.cursorCol) (vgaEntry c m.colorByte) m
    let m := { m with cursorCol := m.cursorCol + 1 }
    if m.cursorCol ≥ vgaWidth then { m with cursorCol := 0, cursorRow := m.cursorRow + 1 } else m

/-- The loops of `vga_clear`. -/
def clearCells (m : Machine) : Machine :=
  { (List.range vgaHeight).foldl (fun m y => blankRow y m) m with cursorRow := 0, cursorCol := 0 }

/-! ## The console functions -/

/-- The steps the critical sections of the console are made of. -/
inductive VgaStep
  | draw (c : UInt8)
  | scrollIfFull
  | updateCursor
  | clearCells
  | setColor (c : UInt8)
  | setColors (fg bg : UInt8)
  deriving DecidableEq, Repr

/-- What a step does. -/
def VgaStep.run : VgaStep → Machine → Machine
  | .draw c, m => drawChar c m
  | .scrollIfFull, m => if m.cursorRow ≥ vgaHeight then scroll m else m
  | .updateCursor, m => OsKernel.updateCursor m
  | .clearCells, m => OsKernel.clearCells m
  | .setColor c, m => { m with colorByte := (c &&& 0x0F) ||| (m.colorByte &&& 0xF0) }
  | .setColors fg bg, m => { m with colorByte := fg ||| (bg <<< 4) }

/-- `vga_put_char`, inside the lock. -/
def vgaPutChar (c : UInt8) : List VgaStep := [.draw c, .scrollIfFull, .updateCursor]

/-- `vga_write`, inside the lock; the string ends before its first `NUL`. -/
def vgaWrite (str : List UInt8) : List VgaStep :=
  (str.takeWhile (· ≠ 0)).flatMap (fun c => [.draw c, .scrollIfFull]) ++ [.updateCursor]

/-- `vga_set_color`, inside the lock. -/
def vgaSetColor (c : UInt8) : List VgaStep := [.setColor c]

/-- `vga_set_colors`, inside the lock. -/
def vgaSetColors (fg bg : UInt8) : List VgaStep := [.setColors fg bg]

/-- `vga_clear`, inside the lock. -/
def vgaClear : List VgaStep := [.clearCells, .updateCursor]

/-- A call of a console function. -/
inductive VgaCall
  | putChar (c : UInt8)
  | write (str : List UInt8)
  | setColor (c : UInt8)
  | setColors (fg bg : UInt8)
  | clear
  deriving DecidableEq, Repr

/-- The critical section of a call. -/
def VgaCall.body : VgaCall → List VgaStep
  | .putChar c => vgaPutChar c
  | .write str => vgaWrite str
  | .setColor c => vgaSetColor c
  | .setColors fg bg => vgaSetColors fg bg
  | .clear => vgaClear

/-- The steps of a critical section, one after the other. -/
def runVgaSteps (steps : List VgaStep) (m : Machine) : Machine := steps.foldl (fun m s => s.run m) m

/-- A call that is not interrupted: it never returns when somebody else holds the lock. -/
def VgaCall.run (call : VgaCall) (m : Machine) : Option Machine :=
  if m.locked then none
  else some { runVgaSteps call.body { m with locked := true } with locked := false }

/-! ## What the console leaves alone -/

/-- `m'` is `m` after console work: lock and clock are as they were, and only the ports
of the display controller were written. -/
structure ConsoleOnly (m m' : Machine) : Prop where
  locked : m'.locked = m.locked
  ticks : m'.ticks = m.ticks
  out : ∃ ws, m'.out = m.out ++ ws ∧ ∀ w ∈ ws, w.port = 0x3D4 ∨ w.port = 0x3D5

variable {m m' m'' : Machine}

theorem ConsoleOnly.refl (m : Machine) : ConsoleOnly m m :=
  ⟨rfl, rfl, [], (List.append_nil _).symm, fun _ hw => absurd hw List.not_mem_nil⟩

theorem ConsoleOnly.trans (h : ConsoleOnly m m') (h' : ConsoleOnly m' m'') : ConsoleOnly m m'' := by
  obtain ⟨ws, hout, hports⟩ := h.out
  obtain ⟨ws', hout', hports'⟩ := h'.out
  refine ⟨h'.locked.trans h.locked, h'.ticks.trans h.ticks, ws ++ ws', ?_, fun w hw => ?_⟩
  · rw [hout', hout, List.append_assoc]
  · exact (List.mem_append.mp hw).elim (hports w) (hports' w)

/-- Work that touches neither lock, clock nor ports. -/
theorem ConsoleOnly.of_eq (hlocked : m'.locked = m.locked) (hticks : m'.ticks = m.ticks)
    (hout : m'.out = m.out) : ConsoleOnly m m' :=
  ⟨hlocked, hticks, [], by rw [hout, List.append_nil], fun _ hw => absurd hw List.not_mem_nil⟩

theorem ConsoleOnly.foldl {α : Type*} {f : Machine → α → Machine} {l : List α}
    (hf : ∀ m x, x ∈ l → ConsoleOnly m (f m x)) (m : Machine) : ConsoleOnly m (l.foldl f m) := by
  induction l generalizing m with
  | nil => exact .refl m
  | cons x l ih =>
    exact (hf m x List.mem_cons_self).trans
      (ih (fun m' y hy => hf m' y (List.mem_cons_of_mem _ hy)) _)

theorem setCell_consoleOnly (index : Nat) (entry : UInt16) (m : Machine) :
    ConsoleOnly m (setCell index entry m) := .of_eq rfl rfl rfl

theorem updateCursor_consoleOnly (m : Machine) : ConsoleOnly m (updateCursor m) := by
  refine ⟨rfl, rfl, ?_⟩
  simp only [updateCursor, outb, List.append_assoc]
  refine ⟨_, rfl, fun w hw => ?_⟩
  simp only [List.mem_append, List.mem_singleton] at hw
  rcases hw with rfl | rfl | rfl | rfl <;> simp

theorem moveRowsUp_consoleOnly (m : Machine) : ConsoleOnly m (moveRowsUp m) :=
  .foldl (fun m _ _ => .foldl (fun m _ _ => setCell_consoleOnly _ _ m) m) m

theorem blankRow_consoleOnly (y : Nat) (m : Machine) : ConsoleOnly m (blankRow y m) :=
  .foldl (fun m _ _ => setCell_consoleOnly _ _ m) m

theorem scroll_consoleOnly (m : Machine) : ConsoleOnly m (scroll m) := by
  rw [scroll]
  generalize hm : blankRow (vgaHeight - 1) (moveRowsUp m) = m'
  have h := (moveRowsUp_consoleOnly m).trans (blankRow_consoleOnly (vgaHeight - 1) _)
  rw [hm] at h
  exact h.trans (.of_eq rfl rfl rfl)

theorem clearCells_consoleOnly (m : Machine) : ConsoleOnly m (clearCells m) := by
  rw [clearCells]
  generalize hm : (List.range vgaHeight).foldl (fun m y => blankRow y m) m = m'
  have h := ConsoleOnly.foldl (l := List.range vgaHeight) (fun m y _ => blankRow_consoleOnly y m) m
  rw [hm] at h
  exact h.trans (.of_eq rfl rfl rfl)

theorem handleBackspace_consoleOnly (m : Machine) : ConsoleOnly m (handleBackspace m) := by
  have hback : ConsoleOnly m (cursorBack m) := by
    unfold cursorBack
    split_ifs <;> exact .of_eq rfl rfl rfl
  exact hback.trans (setCell_consoleOnly _ _ _)

theorem drawChar_consoleOnly (c : UInt8) (m : Machine) : ConsoleOnly m (drawChar c m) := by
  unfold drawChar handleTab setCell
  dsimp only
  split_ifs
  case pos => exact .of_eq rfl rfl rfl
  case pos => exact handleBackspace_consoleOnly m
  all_goals exact .of_eq rfl rfl rfl

theorem VgaStep.run_consoleOnly (s : VgaStep) (m : Machine) : ConsoleOnly m (s.run m) := by
  cases s with
  | draw c => exact drawChar_consoleOnly c m
  | scrollIfFull =>
    rw [VgaStep.run]
    split
    · exact scroll_consoleOnly m
    · exact .refl m
  | updateCursor => exact updateCursor_consoleOnly m
  | clearCells => exact clearCells_consoleOnly m
  | setColor c => exact .of_eq rfl rfl rfl
  | setColors fg bg => exact .of_eq rfl rfl rfl

/-- **A console call** returns when the lock is free, gives it back, and leaves clock and
interrupt controllers alone. -/
theorem VgaCall.run_consoleOnly (call : VgaCall) (hlock : m.locked = false) :
    ∃ m', call.run m = some m' ∧ ConsoleOnly m m' := by
  have hbody : ConsoleOnly { m with locked := true }
      (runVgaSteps call.body { m with locked := true }) :=
    .foldl (fun m s _ => s.run_consoleOnly m) _
  rw [VgaCall.run, hlock]
  exact ⟨_, rfl, hlock.symm, hbody.ticks, hbody.out⟩

end OsKernel
