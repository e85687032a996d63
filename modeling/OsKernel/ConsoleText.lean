import OsKernel.PrintfFormat

/-! # What the console shows, whatever its colours

The log functions change the colour in the middle of a line, so the framebuffer is not in
one colour.  But no step of the console looks at a colour: it treats screens with the same
characters alike (`SameText.step`).  One of them is in white on white, the one colour that
`vga_entry` gives every character.  So what `Tracks` says of text in one colour holds of
the characters of any screen: they are the last rows of the layout of what was printed
since the console was cleared (`Shows.call`).
-/
namespace OsKernel

/-- White on white. -/
def whiteOnWhite : UInt8 := 0xFF

/-- Two screens have the same characters, and the cursor at the same place. -/
structure SameText (m m' : Machine) : Prop where
  characters : ∀ k, (m.cells k).toUInt8 = (m'.cells k).toUInt8
  cursorRow : m.cursorRow = m'.cursorRow
  cursorCol : m.cursorCol = m'.cursorCol

/-- **The console shows a text**: its characters are the last rows of the layout of the text,
blanks where nothing is written, and the cursor is where the layout ends. -/
structure ShowsText (text : List UInt8) (m : Machine) : Prop where
  characters : ∀ y x, y < vgaHeight → x < vgaWidth →
    (m.cells (y * vgaWidth + x)).toUInt8 = ((consoleLayout text).view vgaHeight y x).getD 0x20
  cursorRow : m.cursorRow = (consoleLayout text).viewRow vgaHeight
  cursorCol : m.cursorCol = (consoleLayout text).col

/-- The screen is a coloured one of a screen in white on white that tracks the text. -/
def Shows (text : List UInt8) (m : Machine) : Prop :=
  ∃ m', SameText m m' ∧ Tracks whiteOnWhite (consoleLayout text) m'

/-- The text on the console after a call. -/
def VgaCall.printOn (text : List UInt8) : VgaCall → List UInt8
  | .clear => []
  | call => text ++ call.characters

variable {m m' : Machine} {c : UInt8} {text str : List UInt8}

/-! ## Cells without their colours -/

theorem vgaEntry_whiteOnWhite (c : UInt8) :
    vgaEntry c whiteOnWhite = shownCell whiteOnWhite (some c) := by
  have hones : ∀ i < 16, ¬ i < 8 → ((0xFF#8).setWidth 16 <<< 8).getLsbD i = true := by decide
  apply UInt16.toBitVec_inj.mp
  rw [vgaEntry_toBitVec, shownCell, Option.getD_some, whiteOnWhite]
  change _ = c.toBitVec.setWidth 16 ||| (0xFF#8).setWidth 16 <<< 8
  apply BitVec.eq_of_getLsbD_eq
  intro i hi
  rw [BitVec.getLsbD_or, BitVec.getLsbD_or]
  by_cases hlow : i < 8
  · rw [BitVec.getLsbD_signExtend, BitVec.getLsbD_setWidth, if_pos hlow]
    rfl
  · rw [hones i hi hlow, Bool.or_true]
    exact (Bool.or_eq_true _ _).mpr (Or.inr (hones i hi hlow))

/-- The low byte of a cell is what it shows. -/
theorem shownCell_low (a : Option UInt8) : (shownCell whiteOnWhite a).toUInt8 = a.getD 0x20 := by
  have hentry := vgaEntry_whiteOnWhite (a.getD 0x20)
  rw [shownCell, Option.getD_some, ← shownCell] at hentry
  rw [← hentry, vgaEntry_low]

theorem Shows.showsText (h : Shows text m) : ShowsText text m := by
  obtain ⟨m', hsame, htracks⟩ := h
  refine ⟨fun y x hy hx => ?_, ?_, ?_⟩
  · rw [hsame.characters, htracks.cells y x hy hx, shownCell_low]
  · exact hsame.cursorRow.trans htracks.cursorRow
  · exact hsame.cursorCol.trans htracks.cursorCol

/-! ## No step looks at a colour -/

/-- Writing the cell of the cursor. -/
theorem SameText.setCell (h : SameText m m') (c : UInt8) :
    SameText (setCell (m.cursorRow * vgaWidth + m.cursorCol) (vgaEntry c m.colorByte) m)
      (OsKernel.setCell (m'.cursorRow * vgaWidth + m'.cursorCol) (vgaEntry c m'.colorByte) m') := by
  refine ⟨fun k => ?_, h.cursorRow, h.cursorCol⟩
  rw [h.cursorRow, h.cursorCol, OsKernel.setCell, OsKernel.setCell]
  dsimp only
  by_cases hk : k = m'.cursorRow * vgaWidth + m'.cursorCol
  · rw [hk, Function.update_self, Function.update_self, vgaEntry_low, vgaEntry_low]
  · rw [Function.update_of_ne hk, Function.update_of_ne hk, h.characters]

/-- Moving to a column, or to the next row when there is no such column. -/
theorem SameText.moveTo (h : SameText m m') {col col' : Nat} (hcol : col = col') :
    SameText
      (if col ≥ vgaWidth then { m with cursorCol := 0, cursorRow := m.cursorRow + 1 }
      else { m with cursorCol := col })
      (if col' ≥ vgaWidth then { m' with cursorCol := 0, cursorRow := m'.cursorRow + 1 }
      else { m' with cursorCol := col' }) := by
  subst hcol
  split_ifs
  · exact ⟨h.characters, congrArg (· + 1) h.cursorRow, rfl⟩
  · exact ⟨h.characters, h.cursorRow, rfl⟩

/-- Writing a stretch of cells. -/
theorem SameText.fill (h : SameText m m') {v v' : Nat → UInt16}
    (hv : ∀ k, (v k).toUInt8 = (v' k).toUInt8) (a n : Nat) :
    SameText (fill a n v m) (fill a n v' m') := by
  refine ⟨fun k => ?_, h.cursorRow, h.cursorCol⟩
  by_cases hk : a ≤ k ∧ k < a + n
  · rw [fill_cells_of_mem hk, fill_cells_of_mem hk, hv]
  · rw [fill_cells_of_not_mem hk, fill_cells_of_not_mem hk, h.characters]

theorem SameText.cursorBack (h : SameText m m') :
    SameText (cursorBack m) (OsKernel.cursorBack m') := by
  unfold OsKernel.cursorBack
  rw [h.cursorRow, h.cursorCol]
  split_ifs
  · exact ⟨h.characters, rfl, rfl⟩
  · exact ⟨h.characters, rfl, rfl⟩
  · exact h

theorem SameText.drawChar (h : SameText m m') (c : UInt8) :
    SameText (drawChar c m) (OsKernel.drawChar c m') := by
  unfold OsKernel.drawChar
  by_cases hnewline : c = 0x0A
  · rw [if_pos hnewline, if_pos hnewline]
    exact ⟨h.characters, congrArg (· + 1) h.cursorRow, rfl⟩
  rw [if_neg hnewline, if_neg hnewline]
  by_cases hback : c = 0x08
  · rw [if_pos hback, if_pos hback]
    exact h.cursorBack.setCell 0x20
  rw [if_neg hback, if_neg hback]
  by_cases htab : c = 0x09
  · rw [if_pos htab, if_pos htab]
    exact h.moveTo (congrArg (fun col => (col + tabWidth) / tabWidth * tabWidth) h.cursorCol)
  rw [if_neg htab, if_neg htab]
  by_cases hreturn : c = 0x0D
  · rw [if_pos hreturn, if_pos hreturn]
    exact ⟨h.characters, h.cursorRow, rfl⟩
  · rw [if_neg hreturn, if_neg hreturn]
    exact (h.setCell c).moveTo (congrArg (· + 1) h.cursorCol)

theorem SameText.scroll (h : SameText m m') : SameText (scroll m) (OsKernel.scroll m') := by
  rw [scroll_eq, scroll_eq]
  have hblank : ∀ k : Nat,
      (vgaEntry 0x20 m.colorByte).toUInt8 = (vgaEntry 0x20 m'.colorByte).toUInt8 := by
    intro k
    rw [vgaEntry_low, vgaEntry_low]
  have hmoved := h.fill (fun k => h.characters (k + vgaWidth)) 0 ((vgaHeight - 1) * vgaWidth)
  have hfilled := hmoved.fill hblank ((vgaHeight - 1) * vgaWidth) vgaWidth
  exact ⟨hfilled.characters, rfl, hfilled.cursorCol⟩

theorem SameText.clearCells (h : SameText m m') :
    SameText (clearCells m) (OsKernel.clearCells m') := by
  have hblank : ∀ k : Nat,
      (vgaEntry 0x20 m.colorByte).toUInt8 = (vgaEntry 0x20 m'.colorByte).toUInt8 := by
    intro k
    rw [vgaEntry_low, vgaEntry_low]
  unfold OsKernel.clearCells
  rw [foldl_blankRow, foldl_blankRow]
  exact ⟨(h.fill hblank 0 (vgaHeight * vgaWidth)).characters, rfl, rfl⟩

/-- **A step** does the same to screens with the same text. -/
theorem SameText.step (h : SameText m m') (step : VgaStep) :
    SameText (step.run m) (step.run m') := by
  cases step with
  | draw c => exact h.drawChar c
  | scrollIfFull =>
    rw [VgaStep.run, VgaStep.run, h.cursorRow]
    split_ifs
    · exact h.scroll
    · exact h
  | updateCursor => exact ⟨h.characters, h.cursorRow, h.cursorCol⟩
  | clearCells => exact h.clearCells
  | setColor c => exact ⟨h.characters, h.cursorRow, h.cursorCol⟩
  | setColors fg bg => exact ⟨h.characters, h.cursorRow, h.cursorCol⟩

theorem SameText.steps (h : SameText m m') (steps : List VgaStep) :
    SameText (runVgaSteps steps m) (runVgaSteps steps m') := by
  induction steps generalizing m m' with
  | nil => exact h
  | cons step steps ih => exact ih (h.step step)

/-! ## What a call shows -/

/-- Only the text matters. -/
theorem Shows.of_same (h : Shows text m) (hsame : SameText m' m) : Shows text m' := by
  obtain ⟨m₁, hsame', htracks⟩ := h
  refine ⟨m₁, ⟨fun k => ?_, ?_, ?_⟩, htracks⟩
  · exact (hsame.characters k).trans (hsame'.characters k)
  · exact hsame.cursorRow.trans hsame'.cursorRow
  · exact hsame.cursorCol.trans hsame'.cursorCol

theorem consoleLayout_append (text str : List UInt8) :
    consoleLayout (text ++ str) =
      (str.map mark).foldl (Layout.put vgaWidth tabWidth) (consoleLayout text) := by
  rw [consoleLayout, layOut, List.map_append, List.foldl_append]
  rfl

/-- A text is printed behind the one there was. -/
theorem Shows.write (h : Shows text m) (hback : 0x08 ∉ str) :
    Shows (text ++ str) (runVgaSteps (textSteps str ++ [.updateCursor]) m) := by
  obtain ⟨m', hsame, htracks⟩ := h
  have hstr : ∀ c ∈ str, vgaEntry c whiteOnWhite = shownCell whiteOnWhite (some c) ∧ c ≠ 0x08 := by
    intro c hc
    exact ⟨vgaEntry_whiteOnWhite c, fun heq => hback (heq ▸ hc)⟩
  have hlayout := htracks.text hstr
  rw [← consoleLayout_append] at hlayout
  have hdrawn := hsame.steps (textSteps str)
  rw [runVgaSteps, List.foldl_append]
  exact ⟨_, ⟨hdrawn.characters, hdrawn.cursorRow, hdrawn.cursorCol⟩, hlayout⟩

/-- Clearing forgets the text. -/
theorem shows_clearCells (m : Machine) : Shows [] (runVgaSteps VgaCall.clear.body m) := by
  have hsame : SameText m { m with colorByte := whiteOnWhite } := ⟨fun _ => rfl, rfl, rfl⟩
  have hclear := hsame.clearCells
  have hblank := tracks_clearCells { m with colorByte := whiteOnWhite }
  exact ⟨_, ⟨hclear.characters, hclear.cursorRow, hclear.cursorCol⟩, hblank⟩

/-- **A console call** prints its characters, in whatever colour. -/
theorem Shows.call (h : Shows text m) (c : VgaCall) (hback : 0x08 ∉ c.characters) :
    Shows (c.printOn text) (runVgaSteps c.body m) := by
  cases c with
  | putChar c => exact h.write hback
  | write str => exact h.write hback
  | clear => exact shows_clearCells m
  | setColor c =>
    change Shows (text ++ []) _
    rw [List.append_nil]
    exact h.of_same ⟨fun _ => rfl, rfl, rfl⟩
  | setColors fg bg =>
    change Shows (text ++ []) _
    rw [List.append_nil]
    exact h.of_same ⟨fun _ => rfl, rfl, rfl⟩

end OsKernel
