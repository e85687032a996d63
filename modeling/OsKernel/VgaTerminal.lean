import OsKernel.VgaText

/-! # The console never leaves the screen

The display controller is two registers behind an index port: `Crt` is what it holds
after the bytes sent to its ports.  `InView` is the invariant between two console
calls: the cursor is on the screen and the controller has its position.  Inside a
call the row may be 25 for one step, before `scroll` runs (`NearView`).

A step of a call comes with the list of its stores to the framebuffer.  `replay`
makes these stores one after the other, and gives the framebuffer of the model.
-/
namespace OsKernel

/-! ## The display controller -/

/-- The cursor registers of the display controller. -/
structure Crt where
  index : UInt8
  cursorHigh : UInt8
  cursorLow : UInt8
  deriving DecidableEq, Repr

/-- A byte at a port: 0x3D4 selects a register, 0x3D5 is the register selected. -/
def Crt.write (crt : Crt) (w : PortWrite) : Crt :=
  if w.port = 0x3D4 then { crt with index := w.value }
  else if w.port = 0x3D5 then
    if crt.index = 14 then { crt with cursorHigh := w.value }
    else if crt.index = 15 then { crt with cursorLow := w.value }
    else crt
  else crt

/-- The controller after the bytes `out`. -/
def Crt.after (crt : Crt) (out : List PortWrite) : Crt := out.foldl Crt.write crt

/-- The cell at which the controller shows the cursor. -/
def Crt.position (crt : Crt) : Nat := crt.cursorHigh.toNat * 256 + crt.cursorLow.toNat

/-- `VGA_COLOR_BLACK` -/
def vgaColorBlack : UInt8 := 0

/-- `VGA_COLOR_WHITE` -/
def vgaColorWhite : UInt8 := 15

/-- `vga_init` -/
def vgaInit (m : Machine) : Option Machine :=
  VgaCall.clear.run
    { m with locked := false, colorByte := vgaColorWhite ||| (vgaColorBlack <<< 4) }

/-- **The cursor is on the screen**, and the controller has its position. -/
structure InView (crt : Crt) (m : Machine) : Prop where
  row_lt : m.cursorRow < vgaHeight
  col_lt : m.cursorCol < vgaWidth
  position : (crt.after m.out).position = m.cursorRow * vgaWidth + m.cursorCol

/-- The cursor after a character: the row may be the one below the screen. -/
structure NearView (m : Machine) : Prop where
  row_le : m.cursorRow ≤ vgaHeight
  col_lt : m.cursorCol < vgaWidth

/-- What the console draws on: the framebuffer, the cursor and the colour. -/
def Machine.screen (m : Machine) : Machine := { m with locked := false, ticks := 0, out := [] }

/-- The steps of a text: the turns of `vga_write`, and what `vga_put_char` does with its
character before `update_cursor`. -/
def textSteps (str : List UInt8) : List VgaStep := str.flatMap fun c => [.draw c, .scrollIfFull]

/-! ## The stores of a step -/

/-- The stores to one row. -/
def rowStores (y : Nat) (entry : Nat → UInt16) : List (Nat × UInt16) :=
  (List.range vgaWidth).map fun x => (y * vgaWidth + x, entry x)

/-- The stores of the character cases. -/
def drawStores (c : UInt8) (m : Machine) : List (Nat × UInt16) :=
  if c = 0x0A then []
  else if c = 0x08 then
    [((cursorBack m).cursorRow * vgaWidth + (cursorBack m).cursorCol, vgaEntry 0x20 m.colorByte)]
  else if c = 0x09 then []
  else if c = 0x0D then []
  else [(m.cursorRow * vgaWidth + m.cursorCol, vgaEntry c m.colorByte)]

/-- The stores of `scroll`: row after row moves up, then the last one is blanked. -/
def scrollStores (m : Machine) : List (Nat × UInt16) :=
  (List.range (vgaHeight - 1)).flatMap
      (fun y => rowStores y fun x => m.cells ((y + 1) * vgaWidth + x)) ++
    rowStores (vgaHeight - 1) fun _ => vgaEntry 0x20 m.colorByte

/-- The stores of `vga_clear`. -/
def clearStores (m : Machine) : List (Nat × UInt16) :=
  (List.range vgaHeight).flatMap fun y => rowStores y fun _ => vgaEntry 0x20 m.colorByte

/-- The stores of a step to the framebuffer, in order: index and entry. -/
def VgaStep.stores : VgaStep → Machine → List (Nat × UInt16)
  | .draw c, m => drawStores c m
  | .scrollIfFull, m => if m.cursorRow ≥ vgaHeight then scrollStores m else []
  | .updateCursor, _ => []
  | .clearCells, m => clearStores m
  | .setColor _, _ => []
  | .setColors _ _, _ => []

/-- The stores of the steps, each in the state it meets. -/
def stepsStores : List VgaStep → Machine → List (Nat × UInt16)
  | [], _ => []
  | s :: steps, m => s.stores m ++ stepsStores steps (s.run m)

/-- The stores of a call. -/
def VgaCall.stores (call : VgaCall) (m : Machine) : List (Nat × UInt16) :=
  stepsStores call.body { m with locked := true }

/-- The framebuffer after the stores. -/
def replay (stores : List (Nat × UInt16)) (cells : Nat → UInt16) : Nat → UInt16 :=
  stores.foldl (fun cells w => Function.update cells w.1 w.2) cells

variable {crt : Crt} {m m' : Machine} {c : UInt8} {y : Nat} {entry : Nat → UInt16}

/-! ## Two write paths -/

theorem Crt.after_append (crt : Crt) (out out' : List PortWrite) :
    crt.after (out ++ out') = (crt.after out).after out' := List.foldl_append

/-- The controller has the last position that was sent to it. -/
theorem HardwareCursor.position {pos : Nat} (h : HardwareCursor m pos) (crt : Crt) :
    (crt.after m.out).position = pos := by
  obtain ⟨out, hi, lo, hout, hpos⟩ := h
  rw [hout, Crt.after_append, ← hpos]
  rfl

theorem Machine.eq_of_screen (h : m.screen = m'.screen) :
    m.cells = m'.cells ∧ m.cursorRow = m'.cursorRow ∧ m.cursorCol = m'.cursorCol ∧
      m.colorByte = m'.colorByte := by
  have hcells := congrArg Machine.cells h
  have hrow := congrArg Machine.cursorRow h
  have hcol := congrArg Machine.cursorCol h
  have hcolor := congrArg Machine.colorByte h
  exact ⟨hcells, hrow, hcol, hcolor⟩

theorem cursorBack_screen (m : Machine) : (cursorBack m).screen = cursorBack m.screen := by
  unfold cursorBack Machine.screen
  split_ifs <;> rfl

/-- Going back only moves the cursor. -/
theorem cursorBack_keeps (m : Machine) :
    (cursorBack m).cells = m.cells ∧ (cursorBack m).colorByte = m.colorByte := by
  unfold cursorBack
  split_ifs <;> exact ⟨rfl, rfl⟩

theorem handleBackspace_screen (m : Machine) :
    (handleBackspace m).screen = handleBackspace m.screen := by
  unfold handleBackspace
  rw [← cursorBack_screen]
  rfl

/-- A character is drawn from the screen alone. -/
theorem drawChar_screen (c : UInt8) (m : Machine) :
    (drawChar c m).screen = drawChar c m.screen := by
  unfold drawChar handleTab
  by_cases hback : c = 0x08
  · rw [hback]
    exact handleBackspace_screen m
  · rw [if_neg hback, if_neg hback]
    dsimp only [Machine.screen, setCell]
    split_ifs <;> rfl

theorem scroll_screen (m : Machine) : (scroll m).screen = scroll m.screen := by
  rw [scroll_eq, scroll_eq]
  rfl

theorem scrollIfFull_screen (m : Machine) :
    (VgaStep.scrollIfFull.run m).screen = VgaStep.scrollIfFull.run m.screen := by
  rw [VgaStep.run, VgaStep.run]
  by_cases hfull : m.cursorRow ≥ vgaHeight
  · rw [if_pos hfull, if_pos (by exact hfull), scroll_screen]
  · rw [if_neg hfull, if_neg (by exact hfull)]

theorem runVgaSteps_textSteps_cons (c : UInt8) (str : List UInt8) (m : Machine) :
    runVgaSteps (textSteps (c :: str)) m =
      runVgaSteps (textSteps str) (VgaStep.scrollIfFull.run (drawChar c m)) := rfl

/-- A text is drawn from the screen alone. -/
theorem textSteps_screen (str : List UInt8) (m : Machine) :
    (runVgaSteps (textSteps str) m).screen = runVgaSteps (textSteps str) m.screen := by
  induction str generalizing m with
  | nil => rfl
  | cons c str ih =>
    rw [runVgaSteps_textSteps_cons, runVgaSteps_textSteps_cons, ih, scrollIfFull_screen,
      drawChar_screen]

/-! ## The cursor stays on the screen -/

/-- The cell of the cursor is on the screen. -/
theorem cell_lt {row col : Nat} (hrow : row < vgaHeight) (hcol : col < vgaWidth) :
    row * vgaWidth + col < vgaHeight * vgaWidth := by
  simp only [vgaHeight, vgaWidth] at *
  omega

theorem cursorBack_bounds (hrow : m.cursorRow < vgaHeight) (hcol : m.cursorCol < vgaWidth) :
    (cursorBack m).cursorRow < vgaHeight ∧ (cursorBack m).cursorCol < vgaWidth := by
  unfold cursorBack
  split_ifs
  · exact ⟨hrow, by dsimp only; omega⟩
  · exact ⟨by dsimp only; omega, Nat.sub_lt vgaWidth_pos Nat.one_pos⟩
  · exact ⟨hrow, hcol⟩

/-- Moving to a column, or to the next row when there is no such column. -/
theorem nearView_moveTo (hrow : m.cursorRow < vgaHeight) (col : Nat) :
    NearView (if col ≥ vgaWidth then { m with cursorCol := 0, cursorRow := m.cursorRow + 1 }
      else { m with cursorCol := col }) := by
  split_ifs with hcol
  · exact ⟨hrow, vgaWidth_pos⟩
  · exact ⟨hrow.le, Nat.not_le.mp hcol⟩

/-- **A character** takes the cursor at most one row below the screen. -/
theorem nearView_drawChar (c : UInt8) (hrow : m.cursorRow < vgaHeight)
    (hcol : m.cursorCol < vgaWidth) : NearView (drawChar c m) := by
  unfold drawChar
  split_ifs
  · exact ⟨hrow, vgaWidth_pos⟩
  · obtain ⟨hrow', hcol'⟩ := cursorBack_bounds hrow hcol
    exact ⟨hrow'.le, hcol'⟩
  · exact nearView_moveTo hrow _
  · exact ⟨hrow.le, vgaWidth_pos⟩
  · exact nearView_moveTo (m := setCell _ _ m) hrow _

/-- **`scroll` pulls the cursor back** from the row below the screen. -/
theorem NearView.scrollIfFull (h : NearView m) :
    (VgaStep.scrollIfFull.run m).cursorRow < vgaHeight ∧
      (VgaStep.scrollIfFull.run m).cursorCol < vgaWidth := by
  rw [VgaStep.run]
  split_ifs with hfull
  · rw [scroll_eq]
    exact ⟨Nat.sub_lt vgaHeight_pos Nat.one_pos, h.col_lt⟩
  · exact ⟨Nat.not_le.mp hfull, h.col_lt⟩

/-- A text leaves the cursor on the screen. -/
theorem textSteps_bounds (str : List UInt8) (hrow : m.cursorRow < vgaHeight)
    (hcol : m.cursorCol < vgaWidth) :
    (runVgaSteps (textSteps str) m).cursorRow < vgaHeight ∧
      (runVgaSteps (textSteps str) m).cursorCol < vgaWidth := by
  induction str generalizing m with
  | nil => exact ⟨hrow, hcol⟩
  | cons c str ih =>
    obtain ⟨hrow', hcol'⟩ := (nearView_drawChar c hrow hcol).scrollIfFull
    exact ih hrow' hcol'

/-- `update_cursor` sends the position of a cursor that is on the screen. -/
theorem inView_updateCursor (crt : Crt) (hrow : m.cursorRow < vgaHeight)
    (hcol : m.cursorCol < vgaWidth) : InView crt { updateCursor m with locked := false } := by
  refine ⟨hrow, hcol, ?_⟩
  have hcell : m.cursorRow * vgaWidth + m.cursorCol < 65536 :=
    (cell_lt hrow hcol).trans (by decide)
  exact (hardwareCursor_updateCursor hcell).position crt

/-- **A call that writes a text**: one `vga_write`, or one `vga_put_char`. -/
theorem VgaCall.run_text (call : VgaCall) (str : List UInt8)
    (hbody : call.body = textSteps str ++ [.updateCursor]) (hlock : m.locked = false) :
    ∃ m', call.run m = some m' ∧ m'.locked = false ∧
      m'.screen = runVgaSteps (textSteps str) m.screen ∧
      ∀ crt, m.cursorRow < vgaHeight → m.cursorCol < vgaWidth → InView crt m' := by
  have hrun := call.run_of_body _ hbody hlock
  have hscreen := textSteps_screen str { m with locked := true }
  have hbounds := textSteps_bounds (m := { m with locked := true }) str
  generalize runVgaSteps (textSteps str) { m with locked := true } = m₁ at *
  refine ⟨_, hrun, rfl, hscreen, fun crt hrow hcol => ?_⟩
  obtain ⟨hrow', hcol'⟩ := hbounds hrow hcol
  exact inView_updateCursor crt hrow' hcol'

/-- `vga_put_char` for each character of a text. -/
theorem runCalls_putChars (str : List UInt8) (hlock : m.locked = false) :
    ∃ m', runCalls (str.map .putChar) m = some m' ∧
      m'.screen = runVgaSteps (textSteps str) m.screen ∧ ∀ crt, InView crt m → InView crt m' := by
  induction str generalizing m with
  | nil => exact ⟨m, rfl, rfl, fun _ => id⟩
  | cons c str ih =>
    obtain ⟨m₁, hrun, hlock₁, hscreen, hview⟩ := VgaCall.run_text (.putChar c) [c] rfl hlock
    obtain ⟨m', hrun', hscreen', hview'⟩ := ih hlock₁
    refine ⟨m', ?_, ?_, fun crt h => hview' crt (hview crt h.row_lt h.col_lt)⟩
    · rw [List.map_cons, runCalls, List.foldlM_cons, hrun]
      exact hrun'
    · rw [hscreen', hscreen]
      rfl

/-- **Two write paths agree.**  From any terminal with the cursor on the screen and its
position in the controller, `vga_write` of a string and `vga_put_char` of each of its
characters end with the same framebuffer, cursor and colour, and with the same position
in the controller. -/
theorem vga_write_eq_put_chars (crt : Crt) (str : List UInt8) (hlock : m.locked = false)
    (hrow : m.cursorRow < vgaHeight) (hcol : m.cursorCol < vgaWidth)
    (hpos : (crt.after m.out).position = m.cursorRow * vgaWidth + m.cursorCol) :
    ∃ m₁ m₂, runCalls [.write str] m = some m₁ ∧
      runCalls ((str.takeWhile (· ≠ 0)).map .putChar) m = some m₂ ∧
      m₁.cells = m₂.cells ∧ m₁.cursorRow = m₂.cursorRow ∧ m₁.cursorCol = m₂.cursorCol ∧
      m₁.colorByte = m₂.colorByte ∧
      (crt.after m₁.out).position = (crt.after m₂.out).position := by
  have hview : InView crt m := ⟨hrow, hcol, hpos⟩
  obtain ⟨m₁, hrun₁, -, hscreen₁, hview₁⟩ :=
    VgaCall.run_text (.write str) (str.takeWhile (· ≠ 0)) rfl hlock
  obtain ⟨m₂, hrun₂, hscreen₂, hview₂⟩ := runCalls_putChars (str.takeWhile (· ≠ 0)) hlock
  obtain ⟨hcells, hrows, hcols, hcolor⟩ := Machine.eq_of_screen (hscreen₁.trans hscreen₂.symm)
  refine ⟨m₁, m₂, ?_, hrun₂, hcells, hrows, hcols, hcolor, ?_⟩
  · rw [runCalls, List.foldlM_cons, hrun₁]
    rfl
  · rw [(hview₁ crt hrow hcol).position, (hview₂ crt hview).position, hrows, hcols]

/-- A wrap, a scroll and a backspace, from the last column of the last row: the `A` has moved
up a row with its colour, the `B` is gone, and the cursor is back where the `B` was. -/
theorem vga_write_eq_put_chars_scroll :
    ∃ m₁ m₂, runCalls [.write [0x41, 0x42, 0x08, 0]] ⟨fun _ => 0, 24, 79, 7, false, 0, []⟩ =
        some m₁ ∧
      runCalls [.putChar 0x41, .putChar 0x42, .putChar 0x08]
        ⟨fun _ => 0, 24, 79, 7, false, 0, []⟩ = some m₂ ∧
      m₁.cells = m₂.cells ∧ m₁.cursorRow = m₂.cursorRow ∧ m₁.cursorCol = m₂.cursorCol ∧
      m₂.cells (23 * 80 + 79) = 0x0741 ∧ m₂.cells (24 * 80) = 0x0720 ∧
      m₂.cursorRow = 24 ∧ m₂.cursorCol = 0 := by
  obtain ⟨m₁, m₂, hrun₁, hrun₂, hcells, hrow, hcol, -, -⟩ :=
    vga_write_eq_put_chars (m := ⟨fun _ => 0, 24, 79, 7, false, 0, []⟩) ⟨0, 7, 207⟩
      [0x41, 0x42, 0x08, 0] rfl (by decide) (by decide) (by decide)
  have hshown : (runCalls [.write [0x41, 0x42, 0x08, 0]]
      ⟨fun _ => 0, 24, 79, 7, false, 0, []⟩).map (fun m =>
        (m.cells (23 * 80 + 79), m.cells (24 * 80), m.cursorRow, m.cursorCol)) =
      some (0x0741, 0x0720, 24, 0) := by decide +kernel
  rw [hrun₁, Option.map_some, hcells, hrow, hcol] at hshown
  have htake : ([0x41, 0x42, 0x08, 0] : List UInt8).takeWhile (· ≠ 0) = [0x41, 0x42, 0x08] := by
    decide
  rw [htake] at hrun₂
  refine ⟨m₁, m₂, hrun₁, hrun₂, hcells, hrow, hcol, ?_⟩
  simpa only [Option.some.injEq, Prod.mk.injEq] using hshown

/-! ## The stores are the framebuffer's -/

theorem replay_append (stores stores' : List (Nat × UInt16)) (cells : Nat → UInt16) :
    replay (stores ++ stores') cells = replay stores' (replay stores cells) := List.foldl_append

/-- Replaying is what a loop of `setCell` does. -/
theorem replay_eq_foldl (stores : List (Nat × UInt16)) (m : Machine) :
    replay stores m.cells = (stores.foldl (fun m w => setCell w.1 w.2 m) m).cells := by
  induction stores generalizing m with
  | nil => rfl
  | cons w stores ih => exact ih (setCell w.1 w.2 m)

theorem replay_rowStores {v : Nat → UInt16} (hentry : ∀ x, entry x = v (y * vgaWidth + x)) :
    replay (rowStores y entry) m.cells = (fill (y * vgaWidth) vgaWidth v m).cells := by
  rw [replay_eq_foldl, rowStores, List.foldl_map,
    foldl_fill (f := fun _ x => entry x) fun x _ => hentry x]

theorem replay_rows {n : Nat} {v : Nat → UInt16} {entries : Nat → Nat → UInt16}
    (hentries : ∀ y x, entries y x = v (y * vgaWidth + x)) :
    replay ((List.range n).flatMap fun y => rowStores y (entries y)) m.cells =
      (fill 0 (n * vgaWidth) v m).cells := by
  simp only [replay_eq_foldl, rowStores, List.foldl_flatMap, List.foldl_map]
  rw [foldl_rows (f := fun _ y x => entries y x) fun y _ x _ => hentries y x]

theorem replay_drawStores (c : UInt8) (m : Machine) :
    replay (drawStores c m) m.cells = (drawChar c m).cells := by
  unfold drawStores drawChar handleTab
  by_cases hback : c = 0x08
  · rw [hback]
    change Function.update m.cells _ _ = Function.update (cursorBack m).cells _ _
    rw [(cursorBack_keeps m).1, (cursorBack_keeps m).2]
  · rw [if_neg hback, if_neg hback]
    dsimp only [setCell]
    split_ifs <;> rfl

theorem replay_scrollStores (m : Machine) :
    replay (scrollStores m) m.cells = (scroll m).cells := by
  rw [scrollStores, replay_append, replay_rows (v := fun k => m.cells (k + vgaWidth)),
    replay_rowStores (v := fun _ => vgaEntry 0x20 m.colorByte), scroll_eq]
  · exact fun _ => rfl
  · intro y x
    rw [Nat.succ_mul, Nat.add_right_comm]

theorem replay_clearStores (m : Machine) :
    replay (clearStores m) m.cells = (clearCells m).cells := by
  rw [clearStores, replay_rows (v := fun _ => vgaEntry 0x20 m.colorByte) fun _ _ => rfl, clearCells,
    foldl_blankRow]

/-- **The stores of a step** make its framebuffer. -/
theorem VgaStep.replay_stores (s : VgaStep) (m : Machine) :
    replay (s.stores m) m.cells = (s.run m).cells := by
  cases s with
  | draw c => exact replay_drawStores c m
  | scrollIfFull =>
    rw [VgaStep.stores, VgaStep.run]
    split_ifs
    · exact replay_scrollStores m
    · rfl
  | clearCells => exact replay_clearStores m
  | updateCursor => rfl
  | setColor => rfl
  | setColors => rfl

theorem replay_stepsStores (steps : List VgaStep) (m : Machine) :
    replay (stepsStores steps m) m.cells = (runVgaSteps steps m).cells := by
  induction steps generalizing m with
  | nil => rfl
  | cons s steps ih =>
    rw [stepsStores, replay_append, s.replay_stores, ih]
    rfl

theorem stepsStores_append (steps steps' : List VgaStep) (m : Machine) :
    stepsStores (steps ++ steps') m =
      stepsStores steps m ++ stepsStores steps' (runVgaSteps steps m) := by
  induction steps generalizing m with
  | nil => rfl
  | cons s steps ih =>
    rw [List.cons_append, stepsStores, ih, stepsStores, List.append_assoc]
    rfl

/-! ## Every store is on the screen -/

/-- The stores are below the end of the screen. -/
def StoresOnScreen (stores : List (Nat × UInt16)) : Prop :=
  ∀ w ∈ stores, w.1 < vgaHeight * vgaWidth

theorem StoresOnScreen.append {stores stores' : List (Nat × UInt16)} (h : StoresOnScreen stores)
    (h' : StoresOnScreen stores') : StoresOnScreen (stores ++ stores') :=
  fun w hw => (List.mem_append.mp hw).elim (h w) (h' w)

theorem storesOnScreen_nil : StoresOnScreen [] := fun _ hw => absurd hw List.not_mem_nil

theorem storesOnScreen_single {index : Nat} (hindex : index < vgaHeight * vgaWidth)
    (entry : UInt16) : StoresOnScreen [(index, entry)] := by
  intro w hw
  rw [List.mem_singleton.mp hw]
  exact hindex

theorem storesOnScreen_row (hy : y < vgaHeight) (entry : Nat → UInt16) :
    StoresOnScreen (rowStores y entry) := by
  intro w hw
  obtain ⟨x, hx, rfl⟩ := List.mem_map.mp hw
  exact cell_lt hy (List.mem_range.mp hx)

theorem storesOnScreen_rows {n : Nat} (hn : n ≤ vgaHeight) (entries : Nat → Nat → UInt16) :
    StoresOnScreen ((List.range n).flatMap fun y => rowStores y (entries y)) := by
  intro w hw
  obtain ⟨y, hy, hw⟩ := List.mem_flatMap.mp hw
  exact storesOnScreen_row (Nat.lt_of_lt_of_le (List.mem_range.mp hy) hn) _ w hw

theorem storesOnScreen_draw (c : UInt8) (hrow : m.cursorRow < vgaHeight)
    (hcol : m.cursorCol < vgaWidth) : StoresOnScreen (drawStores c m) := by
  unfold drawStores
  split_ifs
  · exact storesOnScreen_nil
  · obtain ⟨hrow', hcol'⟩ := cursorBack_bounds hrow hcol
    exact storesOnScreen_single (cell_lt hrow' hcol') _
  · exact storesOnScreen_nil
  · exact storesOnScreen_nil
  · exact storesOnScreen_single (cell_lt hrow hcol) _

theorem storesOnScreen_scrollIfFull (m : Machine) :
    StoresOnScreen (VgaStep.scrollIfFull.stores m) := by
  rw [VgaStep.stores]
  split_ifs
  · exact (storesOnScreen_rows (Nat.sub_le _ _) _).append
      (storesOnScreen_row (Nat.sub_lt vgaHeight_pos Nat.one_pos) _)
  · exact storesOnScreen_nil

/-- **A text** stores on the screen only, in the middle of it too. -/
theorem storesOnScreen_text (str : List UInt8) (hrow : m.cursorRow < vgaHeight)
    (hcol : m.cursorCol < vgaWidth) : StoresOnScreen (stepsStores (textSteps str) m) := by
  induction str generalizing m with
  | nil => exact storesOnScreen_nil
  | cons c str ih =>
    obtain ⟨hrow', hcol'⟩ := (nearView_drawChar c hrow hcol).scrollIfFull
    exact (storesOnScreen_draw c hrow hcol).append
      ((storesOnScreen_scrollIfFull _).append (ih hrow' hcol'))

/-! ## Calls after `vga_init` -/

/-- The stores of a call make its framebuffer. -/
theorem VgaCall.replay_stores {call : VgaCall} (h : call.run m = some m') :
    replay (call.stores m) m.cells = m'.cells := by
  rw [VgaCall.run] at h
  split_ifs at h
  rw [← Option.some.inj h]
  exact replay_stepsStores call.body { m with locked := true }

/-- The stores of a call that writes a text. -/
theorem VgaCall.storesOnScreen_text (call : VgaCall) (str : List UInt8)
    (hbody : call.body = textSteps str ++ [.updateCursor]) (h : InView crt m) :
    StoresOnScreen (call.stores m) := by
  rw [VgaCall.stores, hbody, stepsStores_append]
  have htext := OsKernel.storesOnScreen_text (m := { m with locked := true }) str h.row_lt h.col_lt
  exact htext.append storesOnScreen_nil

/-- `vga_clear` brings the cursor to the screen, wherever it was. -/
theorem VgaCall.run_clear (crt : Crt) (hlock : m.locked = false) :
    ∃ m', VgaCall.clear.run m = some m' ∧ m'.locked = false ∧ InView crt m' :=
  ⟨_, VgaCall.clear.run_of_body [.clearCells] rfl hlock, rfl,
    inView_updateCursor crt vgaHeight_pos vgaWidth_pos⟩

/-- **One call** keeps the cursor on the screen and stores nowhere else. -/
theorem InView.call (h : InView crt m) (hlock : m.locked = false) (call : VgaCall) :
    ∃ m', call.run m = some m' ∧ m'.locked = false ∧ InView crt m' ∧
      StoresOnScreen (call.stores m) := by
  cases call with
  | putChar c =>
    obtain ⟨m', hrun, hlock', -, hview⟩ := VgaCall.run_text (.putChar c) [c] rfl hlock
    exact ⟨m', hrun, hlock', hview crt h.row_lt h.col_lt,
      VgaCall.storesOnScreen_text (.putChar c) [c] rfl h⟩
  | write str =>
    obtain ⟨m', hrun, hlock', -, hview⟩ := VgaCall.run_text (.write str) _ rfl hlock
    exact ⟨m', hrun, hlock', hview crt h.row_lt h.col_lt,
      VgaCall.storesOnScreen_text (.write str) _ rfl h⟩
  | setColor c =>
    rw [VgaCall.run, hlock]
    exact ⟨_, rfl, rfl, ⟨h.row_lt, h.col_lt, h.position⟩, storesOnScreen_nil⟩
  | setColors fg bg =>
    rw [VgaCall.run, hlock]
    exact ⟨_, rfl, rfl, ⟨h.row_lt, h.col_lt, h.position⟩, storesOnScreen_nil⟩
  | clear =>
    obtain ⟨m', hrun, hlock', hview⟩ := VgaCall.run_clear crt hlock
    refine ⟨m', hrun, hlock', hview, ?_⟩
    have hrows : StoresOnScreen (clearStores { m with locked := true }) :=
      storesOnScreen_rows le_rfl _
    exact hrows.append storesOnScreen_nil

/-- **Any calls, one after the other.** -/
theorem InView.runCalls (h : InView crt m) (hlock : m.locked = false) (calls : List VgaCall) :
    ∃ m', OsKernel.runCalls calls m = some m' ∧ m'.locked = false ∧ InView crt m' := by
  induction calls generalizing m with
  | nil => exact ⟨m, rfl, hlock, h⟩
  | cons call calls ih =>
    obtain ⟨m₁, hrun, hlock₁, hview, -⟩ := h.call hlock call
    obtain ⟨m', hrun', hlock', hview'⟩ := ih hview hlock₁
    refine ⟨m', ?_, hlock', hview'⟩
    rw [OsKernel.runCalls, List.foldlM_cons, hrun]
    exact hrun'

/-- **Terminal safety.**  After `vga_init` and any calls, one more call returns.  Before
and after it the cursor is on the screen and the controller has its position, and every
store of the call, which together make the framebuffer it leaves, is to one of the 2000
cells. -/
theorem terminal_safety (crt : Crt) (m : Machine) (calls : List VgaCall) (call : VgaCall) :
    ∃ m₀ m₁ m₂, vgaInit m = some m₀ ∧ runCalls calls m₀ = some m₁ ∧ call.run m₁ = some m₂ ∧
      InView crt m₀ ∧ InView crt m₁ ∧ InView crt m₂ ∧
      (∀ w ∈ call.stores m₁, w.1 < 2000) ∧ m₂.cells = replay (call.stores m₁) m₁.cells := by
  obtain ⟨m₀, hinit, hlock₀, hview₀⟩ := VgaCall.run_clear crt
    (m := { m with locked := false, colorByte := vgaColorWhite ||| (vgaColorBlack <<< 4) }) rfl
  obtain ⟨m₁, hcalls, hlock₁, hview₁⟩ := hview₀.runCalls hlock₀ calls
  obtain ⟨m₂, hrun, -, hview₂, hstores⟩ := hview₁.call hlock₁ call
  exact ⟨m₀, m₁, m₂, hinit, hcalls, hrun, hview₀, hview₁, hview₂, hstores,
    (VgaCall.replay_stores hrun).symm⟩

end OsKernel
