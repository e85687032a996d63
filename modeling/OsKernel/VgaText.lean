import Mathlib.Data.List.TakeWhile
import OsKernel.TextLayout
import OsKernel.Vga

/-! # The console shows the tail of the text

A text written after `vga_clear` is laid out on a grid without a last row, and the
framebuffer holds the last 25 rows of this grid.  `Tracks` is the invariant: the
console shows the view of a layout, and the layout is blank below its last row, so
that the row `scroll` blanks is the row that comes into view.
-/
namespace OsKernel

/-- What a character asks for. -/
def mark (c : UInt8) : Mark UInt8 :=
  if c = 0x0A then .newline
  else if c = 0x09 then .tab
  else if c = 0x0D then .carriageReturn
  else .print c

/-- The cell that shows a position of the grid: the character, or a blank, below the
colour. -/
def shownCell (colour : UInt8) (a : Option UInt8) : UInt16 :=
  (a.getD 0x20).toUInt16 ||| (colour.toUInt16 <<< 8)

/-- **The framebuffer and the cursor show the last rows of a layout.** -/
structure ShowsTail (colour : UInt8) (l : Layout UInt8) (m : Machine) : Prop where
  cells : ∀ y x, y < vgaHeight → x < vgaWidth →
    m.cells (y * vgaWidth + x) = shownCell colour (l.view vgaHeight y x)
  cursorRow : m.cursorRow = l.viewRow vgaHeight
  cursorCol : m.cursorCol = l.col

/-- The last position that was sent to the display controller. -/
def HardwareCursor (m : Machine) (pos : Nat) : Prop :=
  ∃ out hi lo, m.out = out ++ [⟨0x3D4, 14⟩, ⟨0x3D5, hi⟩, ⟨0x3D4, 15⟩, ⟨0x3D5, lo⟩] ∧
    hi.toNat * 256 + lo.toNat = pos

/-- One call after the other. -/
def runCalls (calls : List VgaCall) (m : Machine) : Option Machine :=
  calls.foldlM (fun m call => call.run m) m

/-- The layout of a text on the console. -/
def consoleLayout (str : List UInt8) : Layout UInt8 := layOut vgaWidth tabWidth (str.map mark)

/-- **The console tracks a layout.** -/
structure Tracks (colour : UInt8) (l : Layout UInt8) (m : Machine) : Prop
    extends ShowsTail colour l m where
  colorByte : m.colorByte = colour
  col_lt : l.col < vgaWidth
  blankBelow : l.BlankBelow

/-- Between two calls the lock is free and the display controller has the cursor. -/
structure Idle (colour : UInt8) (l : Layout UInt8) (m : Machine) : Prop
    extends Tracks colour l m where
  locked : m.locked = false
  hardware : HardwareCursor m (m.cursorRow * vgaWidth + m.cursorCol)

variable {m m' : Machine} {l : Layout UInt8} {colour c : UInt8} {a n : Nat} {v : Nat → UInt16}

theorem vgaHeight_pos : 0 < vgaHeight := by decide

theorem vgaWidth_pos : 0 < vgaWidth := by decide

/-! ## The loops over the framebuffer -/

/-- The `n` cells from `a` on hold the entries `v`. -/
def fill (a n : Nat) (v : Nat → UInt16) (m : Machine) : Machine :=
  { m with cells := fun k => if a ≤ k ∧ k < a + n then v k else m.cells k }

theorem fill_cells_of_mem {k : Nat} (h : a ≤ k ∧ k < a + n) : (fill a n v m).cells k = v k :=
  if_pos h

theorem fill_cells_of_not_mem {k : Nat} (h : ¬ (a ≤ k ∧ k < a + n)) :
    (fill a n v m).cells k = m.cells k := if_neg h

theorem fill_zero (a : Nat) (v : Nat → UInt16) (m : Machine) : fill a 0 v m = m := by
  have hcells : (fun k => if a ≤ k ∧ k < a + 0 then v k else m.cells k) = m.cells := by
    funext k
    apply if_neg
    omega
  rw [fill, hcells]

theorem fill_fill (a n n' : Nat) (v : Nat → UInt16) (m : Machine) :
    fill (a + n) n' v (fill a n v m) = fill a (n + n') v m := by
  simp only [fill]
  congr 1
  funext k
  split_ifs <;> first | rfl | omega

theorem setCell_fill (a n : Nat) (v : Nat → UInt16) (m : Machine) :
    setCell (a + n) (v (a + n)) (fill a n v m) = fill a (n + 1) v m := by
  rw [← fill_fill, setCell, fill]
  congr 1
  funext k
  by_cases hk : k = a + n
  · rw [hk, Function.update_self, if_pos (by omega)]
  · rw [Function.update_of_ne hk, if_neg (by omega)]

/-- A loop over a row that writes `v`, whatever it has written so far. -/
theorem foldl_fill {f : Machine → Nat → UInt16} (hf : ∀ x < n, f (fill a x v m) x = v (a + x)) :
    (List.range n).foldl (fun m x => setCell (a + x) (f m x) m) m = fill a n v m := by
  induction n with
  | zero => exact (fill_zero a v m).symm
  | succ n ih =>
    rw [List.range_succ, List.foldl_append, ih fun x hx => hf x (Nat.lt_succ_of_lt hx)]
    rw [List.foldl_cons, List.foldl_nil, hf n (Nat.lt_succ_self n), setCell_fill]

/-- A loop over the first `n` rows that writes `v`, whatever it has written so far. -/
theorem foldl_rows {f : Machine → Nat → Nat → UInt16}
    (hf : ∀ y < n, ∀ x < vgaWidth,
      f (fill 0 (y * vgaWidth + x) v m) y x = v (y * vgaWidth + x)) :
    (List.range n).foldl (fun m y => (List.range vgaWidth).foldl (fun m x =>
      setCell (y * vgaWidth + x) (f m y x) m) m) m = fill 0 (n * vgaWidth) v m := by
  induction n with
  | zero => rw [Nat.zero_mul, fill_zero]; rfl
  | succ n ih =>
    rw [List.range_succ, List.foldl_append, ih fun y hy => hf y (Nat.lt_succ_of_lt hy),
      List.foldl_cons, List.foldl_nil, Nat.succ_mul, ← fill_fill, Nat.zero_add]
    apply foldl_fill (f := fun m x => f m n x)
    intro x hx
    have hprev := fill_fill 0 (n * vgaWidth) x v m
    rw [Nat.zero_add] at hprev
    rw [hprev]
    exact hf n (Nat.lt_succ_self n) x hx

/-- Moving the rows up: a row is read before it is overwritten. -/
theorem moveRowsUp_eq (m : Machine) :
    moveRowsUp m = fill 0 ((vgaHeight - 1) * vgaWidth) (fun k => m.cells (k + vgaWidth)) m := by
  rw [moveRowsUp, List.range'_eq_map_range, List.foldl_map]
  simp only [Nat.add_sub_cancel_left]
  apply foldl_rows (f := fun m y x => m.cells ((1 + y) * vgaWidth + x))
  intro y hy x hx
  have hcell : (1 + y) * vgaWidth + x = y * vgaWidth + x + vgaWidth := by
    rw [Nat.add_comm 1 y, Nat.succ_mul, Nat.add_right_comm]
  rw [hcell, fill_cells_of_not_mem]
  have hwidth := vgaWidth_pos
  omega

theorem blankRow_eq (y : Nat) (m : Machine) :
    blankRow y m = fill (y * vgaWidth) vgaWidth (fun _ => vgaEntry 0x20 m.colorByte) m :=
  foldl_fill (f := fun m _ => vgaEntry 0x20 m.colorByte) fun _ _ => rfl

theorem foldl_blankRow (n : Nat) (m : Machine) :
    (List.range n).foldl (fun m y => blankRow y m) m =
      fill 0 (n * vgaWidth) (fun _ => vgaEntry 0x20 m.colorByte) m :=
  foldl_rows (f := fun m _ _ => vgaEntry 0x20 m.colorByte) fun _ _ _ _ => rfl

/-- `scroll` without its loops. -/
theorem scroll_eq (m : Machine) :
    scroll m =
      { fill ((vgaHeight - 1) * vgaWidth) vgaWidth (fun _ => vgaEntry 0x20 m.colorByte)
          (fill 0 ((vgaHeight - 1) * vgaWidth) (fun k => m.cells (k + vgaWidth)) m) with
        cursorRow := vgaHeight - 1 } := by
  rw [scroll, blankRow_eq, moveRowsUp_eq]
  rfl

/-- `scroll` moves the cells in view up by one row. -/
theorem scroll_cells_moved {k : Nat} (hk : k < (vgaHeight - 1) * vgaWidth) :
    (scroll m).cells k = m.cells (k + vgaWidth) := by
  rw [scroll_eq]
  dsimp only
  rw [fill_cells_of_not_mem (by omega), fill_cells_of_mem ⟨Nat.zero_le k, by omega⟩]

/-- `scroll` blanks the last row. -/
theorem scroll_cells_blank {k : Nat} (hk : (vgaHeight - 1) * vgaWidth ≤ k)
    (hview : k < vgaHeight * vgaWidth) : (scroll m).cells k = vgaEntry 0x20 m.colorByte := by
  rw [scroll_eq]
  dsimp only
  rw [fill_cells_of_mem]
  simp only [vgaHeight, vgaWidth] at *
  omega

/-- **What `scroll` does to the cells in view.** -/
theorem scroll_cells {y x : Nat} (hy : y < vgaHeight) (hx : x < vgaWidth) :
    (scroll m).cells (y * vgaWidth + x) =
      if y = vgaHeight - 1 then vgaEntry 0x20 m.colorByte
      else m.cells ((y + 1) * vgaWidth + x) := by
  split_ifs with hlast
  · apply scroll_cells_blank
    · rw [hlast]
      omega
    · simp only [vgaHeight, vgaWidth] at *
      omega
  · rw [scroll_cells_moved, Nat.succ_mul, Nat.add_right_comm]
    simp only [vgaHeight, vgaWidth] at *
    omega

/-- **What `vga_clear` does to the cells.** -/
theorem clearCells_cells {k : Nat} (hk : k < vgaHeight * vgaWidth) :
    (clearCells m).cells k = vgaEntry 0x20 m.colorByte := by
  change ((List.range vgaHeight).foldl (fun m y => blankRow y m) m).cells k = _
  rw [foldl_blankRow, fill_cells_of_mem ⟨Nat.zero_le k, by omega⟩]

/-! ## One character -/

/-- A `char` from 0x80 on is negative. -/
theorem char_msb (c : UInt8) : c.toBitVec.msb = true ↔ ¬ c < 0x80 := by
  rw [BitVec.msb_eq_decide, decide_eq_true_iff, UInt8.lt_iff_toNat_lt]
  exact Nat.not_lt.symm

/-- A character below 0x80 has no sign to extend. -/
theorem vgaEntry_ascii (hc : c < 0x80) : vgaEntry c colour = shownCell colour (some c) := by
  have hmsb : c.toBitVec.msb = false := Bool.eq_false_iff.mpr fun h => (char_msb c).mp h hc
  have hext : c.toInt8.toInt16.toUInt16 = c.toUInt16 := by
    rw [← UInt16.toBitVec_inj]
    exact BitVec.signExtend_eq_setWidth_of_msb_false hmsb
  rw [vgaEntry, hext, shownCell]
  rfl

theorem vgaEntry_blank (colour : UInt8) : vgaEntry 0x20 colour = shownCell colour none :=
  vgaEntry_ascii (by decide)

/-- Lock, clock and ports do not matter. -/
theorem Tracks.congr (h : Tracks colour l m) (hcells : m'.cells = m.cells)
    (hrow : m'.cursorRow = m.cursorRow) (hcol : m'.cursorCol = m.cursorCol)
    (hcolor : m'.colorByte = m.colorByte) : Tracks colour l m' where
  cells := by rw [hcells]; exact h.cells
  cursorRow := hrow.trans h.cursorRow
  cursorCol := hcol.trans h.cursorCol
  colorByte := hcolor.trans h.colorByte
  col_lt := h.col_lt
  blankBelow := h.blankBelow

/-- The cursor is in view, so that nothing has to scroll. -/
theorem Tracks.scrollIfFull (h : Tracks colour l m) : VgaStep.scrollIfFull.run m = m := by
  have hlt := l.viewRow_lt vgaHeight_pos
  rw [← h.cursorRow] at hlt
  exact if_neg (Nat.not_le.mpr hlt)

/-- Moving inside the row. -/
theorem Tracks.setCol (h : Tracks colour l m) {col : Nat} (hcol : col < vgaWidth) :
    Tracks colour { l with col := col } { m with cursorCol := col } where
  cells := h.cells
  cursorRow := h.cursorRow
  cursorCol := rfl
  colorByte := h.colorByte
  col_lt := hcol
  blankBelow := h.blankBelow

/-- **Going to the next row** scrolls exactly when the view moves. -/
theorem Tracks.advance (h : Tracks colour l m) :
    Tracks colour l.advance
      (VgaStep.scrollIfFull.run { m with cursorCol := 0, cursorRow := m.cursorRow + 1 }) := by
  have hrow := h.cursorRow
  by_cases hfit : l.row + 1 < vgaHeight
  · have hview := l.viewRow_advance_of_lt hfit
    have hlt := l.advance.viewRow_lt vgaHeight_pos
    rw [VgaStep.run, if_neg (by change ¬ vgaHeight ≤ m.cursorRow + 1; omega)]
    refine ⟨⟨?_, ?_, rfl⟩, h.colorByte, vgaWidth_pos, h.blankBelow.advance⟩
    · intro y x hy hx
      rw [Layout.view_advance_of_lt hfit]
      exact h.cells y x hy hx
    · rw [hview, ← hrow]
  · have hge : vgaHeight ≤ l.row + 1 := Nat.not_lt.mp hfit
    have hfull : vgaHeight ≤ m.cursorRow + 1 := by
      rw [hrow, Layout.viewRow, Layout.top]
      omega
    rw [VgaStep.run, if_pos hfull]
    refine ⟨⟨?_, ?_, ?_⟩, ?_, vgaWidth_pos, h.blankBelow.advance⟩
    · intro y x hy hx
      rw [scroll_cells hy hx]
      by_cases hlast : y = vgaHeight - 1
      · rw [if_pos hlast, hlast, Layout.view_advance_last h.blankBelow vgaHeight_pos hge]
        change vgaEntry 0x20 m.colorByte = _
        rw [h.colorByte, vgaEntry_blank]
      · rw [if_neg hlast, Layout.view_advance_of_ge hge]
        exact h.cells (y + 1) x (by omega) hx
    · rw [Layout.viewRow_advance_of_ge vgaHeight_pos hge, scroll_eq]
    · rw [scroll_eq]
      rfl
    · rw [scroll_eq]
      exact h.colorByte

/-- Moving to a column, or to the next row when there is no such column. -/
theorem Tracks.moveTo (h : Tracks colour l m) (col : Nat) :
    Tracks colour (l.moveTo vgaWidth col) (VgaStep.scrollIfFull.run
      (if col ≥ vgaWidth then { m with cursorCol := 0, cursorRow := m.cursorRow + 1 }
      else { m with cursorCol := col })) := by
  by_cases hcol : col < vgaWidth
  · have hset := h.setCol hcol
    rw [Layout.moveTo, if_pos hcol, if_neg (Nat.not_le.mpr hcol), hset.scrollIfFull]
    exact hset
  · rw [Layout.moveTo, if_neg hcol, if_pos (Nat.not_lt.mp hcol)]
    exact h.advance

/-- Writing a cell. -/
theorem Tracks.write (h : Tracks colour l m) (hc : vgaEntry c colour = shownCell colour (some c)) :
    Tracks colour (l.write c)
      (setCell (m.cursorRow * vgaWidth + m.cursorCol) (vgaEntry c m.colorByte) m) := by
  refine ⟨⟨?_, h.cursorRow, h.cursorCol⟩, h.colorByte, h.col_lt, h.blankBelow.write c⟩
  intro y x hy hx
  have hcol := h.col_lt
  rw [Layout.view_write vgaHeight_pos, setCell, h.cursorRow, h.cursorCol, h.colorByte]
  dsimp only
  by_cases hhere : y = l.viewRow vgaHeight ∧ x = l.col
  · rw [if_pos hhere, hhere.1, hhere.2, ← hc, Function.update_self]
  · rw [if_neg hhere, ← h.cells y x hy hx, Function.update_of_ne]
    simp only [vgaWidth] at hx hcol ⊢
    omega

/-- **One character** is laid out. -/
theorem Tracks.draw (h : Tracks colour l m) (hc : vgaEntry c colour = shownCell colour (some c))
    (hback : c ≠ 0x08) :
    Tracks colour (l.put vgaWidth tabWidth (mark c))
      (VgaStep.scrollIfFull.run (drawChar c m)) := by
  unfold mark drawChar
  by_cases hnewline : c = 0x0A
  · rw [if_pos hnewline, if_pos hnewline]
    exact h.advance
  rw [if_neg hnewline, if_neg hnewline, if_neg hback]
  by_cases htab : c = 0x09
  · rw [if_pos htab, if_pos htab, Layout.put]
    have hcol : (m.cursorCol + tabWidth) / tabWidth * tabWidth =
        (l.col / tabWidth + 1) * tabWidth := by
      rw [h.cursorCol, Nat.add_div_right _ (by decide)]
    have hmove := h.moveTo ((m.cursorCol + tabWidth) / tabWidth * tabWidth)
    rw [hcol] at hmove
    unfold handleTab
    rw [hcol]
    exact hmove
  rw [if_neg htab, if_neg htab]
  by_cases hreturn : c = 0x0D
  · rw [if_pos hreturn, if_pos hreturn]
    have hset := h.setCol vgaWidth_pos
    rw [hset.scrollIfFull]
    exact hset
  · rw [if_neg hreturn, if_neg hreturn, Layout.put, ← h.cursorCol]
    exact (h.write hc).moveTo _

/-! ## Calls -/

/-- A text is laid out character by character. -/
theorem Tracks.text (h : Tracks colour l m) {str : List UInt8}
    (hstr : ∀ c ∈ str, vgaEntry c colour = shownCell colour (some c) ∧ c ≠ 0x08) :
    Tracks colour ((str.map mark).foldl (Layout.put vgaWidth tabWidth) l)
      (runVgaSteps (str.flatMap fun c => [.draw c, .scrollIfFull]) m) := by
  induction str generalizing l m with
  | nil => exact h
  | cons c str ih =>
    obtain ⟨hc, hback⟩ := hstr c List.mem_cons_self
    exact ih (h.draw hc hback) fun c' hc' => hstr c' (List.mem_cons_of_mem c hc')

theorem tracks_clearCells (m : Machine) : Tracks m.colorByte .blank (clearCells m) := by
  have hcolor : (clearCells m).colorByte = m.colorByte := by
    rw [clearCells, foldl_blankRow]
    rfl
  refine ⟨⟨?_, rfl, rfl⟩, hcolor, vgaWidth_pos, Layout.blankBelow_blank⟩
  intro y x hy hx
  rw [clearCells_cells, vgaEntry_blank]
  · rfl
  · simp only [vgaHeight, vgaWidth] at *
    omega

/-- `update_cursor` sends the position in two bytes. -/
theorem hardwareCursor_updateCursor (h : m.cursorRow * vgaWidth + m.cursorCol < 65536) :
    HardwareCursor (updateCursor m) (m.cursorRow * vgaWidth + m.cursorCol) := by
  refine ⟨m.out, _, _, by simp only [updateCursor, outb, List.append_assoc]; rfl, ?_⟩
  rw [UInt16.toNat_toUInt8, UInt16.toNat_toUInt8, UInt16.toNat_shiftRight,
    UInt16.toNat_ofNat_of_lt' h, Nat.shiftRight_eq_div_pow]
  change _ / 2 ^ 8 % 256 * 256 + _ = _
  omega

/-- A call that ends with `update_cursor`, without its lock. -/
theorem VgaCall.run_of_body (call : VgaCall) (steps : List VgaStep)
    (hbody : call.body = steps ++ [.updateCursor]) (hlock : m.locked = false) :
    call.run m =
      some { updateCursor (runVgaSteps steps { m with locked := true }) with locked := false } := by
  rw [VgaCall.run, hlock, hbody, runVgaSteps, List.foldl_append]
  rfl

/-- A call that ends with `update_cursor` leaves the console where its steps left it. -/
theorem VgaCall.run_idle (call : VgaCall) (steps : List VgaStep)
    (hbody : call.body = steps ++ [.updateCursor]) (hlock : m.locked = false)
    (h : Tracks colour l (runVgaSteps steps { m with locked := true })) :
    ∃ m', call.run m = some m' ∧ Idle colour l m' := by
  refine ⟨_, call.run_of_body steps hbody hlock, ?_⟩
  generalize runVgaSteps steps { m with locked := true } = m₁ at h
  have hpos : m₁.cursorRow * vgaWidth + m₁.cursorCol < 65536 := by
    have hrow := l.viewRow_lt vgaHeight_pos
    have hcol := h.col_lt
    rw [h.cursorRow, h.cursorCol]
    simp only [vgaWidth, vgaHeight] at *
    omega
  obtain ⟨out, hi, lo, hout, hbytes⟩ := hardwareCursor_updateCursor hpos
  exact ⟨h.congr rfl rfl rfl rfl, rfl, out, hi, lo, hout, hbytes⟩

/-- Taking the lock. -/
theorem Idle.acquire (h : Idle colour l m) : Tracks colour l { m with locked := true } :=
  h.toTracks.congr rfl rfl rfl rfl

/-- `vga_write` lays out its text. -/
theorem Idle.write (h : Idle colour l m) {str : List UInt8} (hnul : ∀ c ∈ str, c ≠ 0)
    (hstr : ∀ c ∈ str, c < 0x80 ∧ c ≠ 0x08) :
    ∃ m', runCalls [.write str] m = some m' ∧
      Idle colour ((str.map mark).foldl (Layout.put vgaWidth tabWidth) l) m' := by
  have htake : str.takeWhile (· ≠ 0) = str :=
    List.takeWhile_eq_self_iff.mpr fun c hc => decide_eq_true (hnul c hc)
  obtain ⟨m', hrun, hidle⟩ := VgaCall.run_idle (.write str)
    (str.flatMap fun c => [.draw c, .scrollIfFull])
    (by rw [VgaCall.body, vgaWrite, htake]) h.locked
    (h.acquire.text fun c hc => ⟨vgaEntry_ascii (hstr c hc).1, (hstr c hc).2⟩)
  refine ⟨m', ?_, hidle⟩
  rw [runCalls, List.foldlM_cons, hrun]
  rfl

/-- `vga_put_char` lays out its character, call after call. -/
theorem Idle.putChars (h : Idle colour l m) {str : List UInt8}
    (hstr : ∀ c ∈ str, c < 0x80 ∧ c ≠ 0x08) :
    ∃ m', runCalls (str.map .putChar) m = some m' ∧
      Idle colour ((str.map mark).foldl (Layout.put vgaWidth tabWidth) l) m' := by
  induction str generalizing l m with
  | nil => exact ⟨m, rfl, h⟩
  | cons c str ih =>
    obtain ⟨hc, hback⟩ := hstr c List.mem_cons_self
    obtain ⟨m₁, hrun, hidle⟩ := VgaCall.run_idle (.putChar c) [.draw c, .scrollIfFull] rfl h.locked
      (h.acquire.draw (vgaEntry_ascii hc) hback)
    obtain ⟨m', hrun', hidle'⟩ := ih hidle fun c' hc' => hstr c' (List.mem_cons_of_mem c hc')
    refine ⟨m', ?_, hidle'⟩
    rw [List.map_cons, runCalls, List.foldlM_cons, hrun]
    exact hrun'

/-- **The console shows the tail of the text.**  After `vga_clear`, a text of
characters 0x01..0x7F other than the backspace is written with one `vga_write` or
with one `vga_put_char` for each character.  The framebuffer then holds the last 25
rows of the layout of the text, blanks of the same colour where nothing is written,
and the cursor is where the layout ends. -/
theorem console_shows_tail {str : List UInt8} {calls : List VgaCall} (hlock : m.locked = false)
    (hstr : ∀ c ∈ str, 0x01 ≤ c ∧ c ≤ 0x7F ∧ c ≠ 0x08)
    (hcalls : calls = [.write str] ∨ calls = str.map .putChar) :
    ∃ m', runCalls (.clear :: calls) m = some m' ∧
      ShowsTail m.colorByte (consoleLayout str) m' ∧
      HardwareCursor m' (m'.cursorRow * vgaWidth + m'.cursorCol) := by
  obtain ⟨m₁, hclear, hidle⟩ := VgaCall.run_idle .clear [.clearCells] rfl hlock
    (tracks_clearCells { m with locked := true })
  have hnul : ∀ c ∈ str, c ≠ 0 := by
    rintro c hc rfl
    exact absurd (hstr 0 hc).1 (by decide)
  have hascii : ∀ c ∈ str, c < 0x80 ∧ c ≠ 0x08 := by
    intro c hc
    obtain ⟨-, hle, hback⟩ := hstr c hc
    exact ⟨UInt8.lt_of_le_of_lt hle (by decide), hback⟩
  have hdone : ∃ m', runCalls calls m₁ = some m' ∧ Idle m.colorByte (consoleLayout str) m' := by
    rcases hcalls with rfl | rfl
    · exact hidle.write hnul hascii
    · exact hidle.putChars hascii
  obtain ⟨m', hrun, hidle'⟩ := hdone
  refine ⟨m', ?_, hidle'.toShowsTail, hidle'.hardware⟩
  rw [runCalls, List.foldlM_cons, hclear]
  exact hrun

/-- A tab, a line of text and an overwritten character, from a console in use. -/
theorem console_shows_tail_line :
    ∃ m', runCalls [.clear, .write [0x09, 0x41, 0x0A, 0x42, 0x0D, 0x43]]
        ⟨fun _ => 0, 7, 3, 0x1E, false, 0, []⟩ = some m' ∧
      m'.cells 8 = 0x1E41 ∧ m'.cells 80 = 0x1E43 ∧ m'.cells 81 = 0x1E20 ∧
      m'.cursorRow = 1 ∧ m'.cursorCol = 1 := by
  have hstr : ∀ c ∈ ([0x09, 0x41, 0x0A, 0x42, 0x0D, 0x43] : List UInt8),
      0x01 ≤ c ∧ c ≤ 0x7F ∧ c ≠ 0x08 := by simp
  obtain ⟨m', hrun, hshow, -⟩ := console_shows_tail (m := ⟨fun _ => 0, 7, 3, 0x1E, false, 0, []⟩)
    rfl hstr (Or.inl rfl)
  refine ⟨m', hrun, ?_, ?_, ?_, hshow.cursorRow.trans ?_, hshow.cursorCol.trans ?_⟩
  · exact (hshow.cells 0 8 (by decide) (by decide)).trans (by decide)
  · exact (hshow.cells 1 0 (by decide) (by decide)).trans (by decide)
  · exact (hshow.cells 1 1 (by decide) (by decide)).trans (by decide)
  · decide
  · decide

end OsKernel
