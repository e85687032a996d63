import OsKernel.VgaTerminal

/-! # The colour of the text

`ink` follows a text over the screen: it says of every cell in view which character of the
text was written to it last.  Scrolling moves the ink with the cells, and a backspace takes
it away.  The cells hold their characters in the current colour as long as the text is
ASCII.  A character from 0x80 on is a negative `char`, and `vga_entry` extends its sign
over the colour.
-/
namespace OsKernel

/-- A character that is drawn: no newline, backspace, tab or carriage return. -/
def Drawn (c : UInt8) : Prop := c ≠ 0x0A ∧ c ≠ 0x08 ∧ c ≠ 0x09 ∧ c ≠ 0x0D

instance : DecidablePred Drawn := fun _ => inferInstanceAs (Decidable (_ ∧ _ ∧ _ ∧ _))

/-- The character of the text in each cell in view. -/
abbrev Ink := Nat → Option UInt8

/-- The ink after a character, before the console looks at the last row. -/
def inkDraw (c : UInt8) (m : Machine) (ink : Ink) : Ink :=
  if Drawn c then Function.update ink (m.cursorRow * vgaWidth + m.cursorCol) (some c)
  else if c = 0x08 then
    Function.update ink ((cursorBack m).cursorRow * vgaWidth + (cursorBack m).cursorCol) none
  else ink

/-- The ink moves up with the rows. -/
def inkScroll (m : Machine) (ink : Ink) : Ink :=
  if m.cursorRow ≥ vgaHeight then fun k =>
    if k < (vgaHeight - 1) * vgaWidth then ink (k + vgaWidth) else none
  else ink

/-- The ink after a text. -/
def inkText : List UInt8 → Machine → Ink → Ink
  | [], _, ink => ink
  | c :: str, m, ink =>
    inkText str (VgaStep.scrollIfFull.run (drawChar c m))
      (inkScroll (drawChar c m) (inkDraw c m ink))

/-- **Every character of the text that is in view** is the low byte of its cell, and the
current colour the high byte. -/
def InColour (ink : Ink) (m : Machine) : Prop :=
  ∀ k < vgaHeight * vgaWidth, ∀ c, ink k = some c →
    (m.cells k).toUInt8 = c ∧ (m.cells k >>> 8).toUInt8 = m.colorByte

/-- What `vga_entry` has made of the characters in view. -/
def DrawnAs (ink : Ink) (m : Machine) : Prop :=
  ∀ k < vgaHeight * vgaWidth, ∀ c, ink k = some c → m.cells k = vgaEntry c m.colorByte

/-- The calls write the text `str`: one `vga_write` of a string, or `vga_put_char` of each
character. -/
def Writes (str : List UInt8) (calls : List VgaCall) : Prop :=
  calls = [.write str] ∧ (∀ c ∈ str, c ≠ 0) ∨ calls = str.map .putChar

variable {m : Machine} {ink : Ink} {c colour : UInt8} {str : List UInt8}

/-! ## A cell -/

theorem vgaEntry_toBitVec (c colour : UInt8) :
    (vgaEntry c colour).toBitVec =
      c.toBitVec.signExtend 16 ||| (colour.toBitVec.setWidth 16 <<< 8) := rfl

/-- The low byte of a cell is the character. -/
theorem vgaEntry_low (c colour : UInt8) : (vgaEntry c colour).toUInt8 = c := by
  apply UInt8.toBitVec_inj.mp
  change (vgaEntry c colour).toBitVec.setWidth 8 = _
  rw [vgaEntry_toBitVec]
  ext i hi
  have h16 : i < 16 := by omega
  simp [BitVec.getElem_signExtend, hi, h16, BitVec.getLsbD_eq_getElem]

/-- **The high byte of a cell** is the colour, unless the sign of the character covers it. -/
theorem vgaEntry_high (c colour : UInt8) :
    (vgaEntry c colour >>> 8).toUInt8 = if c < 0x80 then colour else 0xFF := by
  apply UInt8.toBitVec_inj.mp
  change ((vgaEntry c colour).toBitVec >>> 8).setWidth 8 = _
  rw [vgaEntry_toBitVec]
  split_ifs with hc
  · have hmsb : c.toBitVec.msb = false := Bool.eq_false_iff.mpr fun h => (char_msb c).mp h hc
    ext i hi
    have h16 : 8 + i < 16 := by omega
    have h8 : ¬ 8 + i < 8 := by omega
    simp [BitVec.getElem_signExtend, hmsb, h16, h8, hi]
  · have hmsb : c.toBitVec.msb = true := (char_msb c).mpr hc
    change _ = BitVec.allOnes 8
    ext i hi
    have h16 : 8 + i < 16 := by omega
    have h8 : ¬ 8 + i < 8 := by omega
    rw [BitVec.getElem_allOnes]
    simp [BitVec.getElem_signExtend, hmsb, h16, h8]

theorem vgaEntry_high_iff :
    (vgaEntry c colour >>> 8).toUInt8 = colour ↔ c < 0x80 ∨ colour = 0xFF := by
  rw [vgaEntry_high]
  split_ifs with hc
  · simp [hc]
  · simp [hc, eq_comm]

/-! ## One character -/

theorem drawChar_colorByte (c : UInt8) (m : Machine) :
    (drawChar c m).colorByte = m.colorByte := by
  unfold drawChar handleBackspace handleTab cursorBack setCell
  dsimp only
  split_ifs <;> rfl

theorem scrollIfFull_colorByte (m : Machine) :
    (VgaStep.scrollIfFull.run m).colorByte = m.colorByte := by
  rw [VgaStep.run]
  split_ifs
  · rw [scroll_eq]
    rfl
  · rfl

theorem drawChar_cursorRow_le (c : UInt8) (m : Machine) :
    (drawChar c m).cursorRow ≤ m.cursorRow + 1 := by
  unfold drawChar handleBackspace handleTab cursorBack setCell
  dsimp only
  split_ifs <;> dsimp only <;> omega

/-- The cells after a character. -/
theorem drawChar_cells (c : UInt8) (m : Machine) :
    (drawChar c m).cells =
      if Drawn c then
        Function.update m.cells (m.cursorRow * vgaWidth + m.cursorCol) (vgaEntry c m.colorByte)
      else if c = 0x08 then
        Function.update m.cells ((cursorBack m).cursorRow * vgaWidth + (cursorBack m).cursorCol)
          (vgaEntry 0x20 m.colorByte)
      else m.cells := by
  unfold Drawn drawChar handleBackspace handleTab setCell
  by_cases hback : c = 0x08
  · rw [hback]
    simp [cursorBack_keeps m]
  · dsimp only
    split_ifs <;> first | rfl | simp_all

/-- A character keeps the cells of the others. -/
theorem DrawnAs.draw (h : DrawnAs ink m) (c : UInt8) :
    DrawnAs (inkDraw c m ink) (drawChar c m) := by
  intro k hk d hd
  rw [drawChar_cells, drawChar_colorByte]
  unfold inkDraw at hd
  split_ifs at hd ⊢ with hdrawn hback
  · by_cases hpos : k = m.cursorRow * vgaWidth + m.cursorCol
    · rw [hpos, Function.update_self] at hd ⊢
      obtain rfl := Option.some.inj hd
      rfl
    · rw [Function.update_of_ne hpos] at hd ⊢
      exact h k hk d hd
  · by_cases hpos : k = (cursorBack m).cursorRow * vgaWidth + (cursorBack m).cursorCol
    · rw [hpos, Function.update_self] at hd
      cases hd
    · rw [Function.update_of_ne hpos] at hd ⊢
      exact h k hk d hd
  · exact h k hk d hd

/-- **Scrolling** moves the characters with their colours. -/
theorem DrawnAs.scrollIfFull (h : DrawnAs ink m) :
    DrawnAs (inkScroll m ink) (VgaStep.scrollIfFull.run m) := by
  intro k hk d hd
  rw [scrollIfFull_colorByte, VgaStep.run]
  unfold inkScroll at hd
  split_ifs at hd ⊢ with hfull
  · dsimp only at hd
    split_ifs at hd with hmoved
    rw [scroll_cells_moved hmoved]
    exact h _ (by simp only [vgaHeight, vgaWidth] at *; omega) d hd
  · exact h k hk d hd

/-- The ink is of characters that were drawn. -/
theorem mem_of_inkScroll_inkDraw {k : Nat} {d : UInt8}
    (hd : inkScroll (drawChar c m) (inkDraw c m ink) k = some d) :
    d = c ∧ Drawn c ∨ ∃ k', ink k' = some d := by
  have hdraw : ∀ k, inkDraw c m ink k = some d → d = c ∧ Drawn c ∨ ∃ k', ink k' = some d := by
    intro k hd
    unfold inkDraw at hd
    split_ifs at hd with hdrawn hback
    · rw [Function.update_apply] at hd
      split_ifs at hd
      · exact .inl ⟨(Option.some.inj hd).symm, hdrawn⟩
      · exact .inr ⟨_, hd⟩
    · rw [Function.update_apply] at hd
      split_ifs at hd
      exact .inr ⟨_, hd⟩
    · exact .inr ⟨_, hd⟩
  unfold inkScroll at hd
  split_ifs at hd
  · dsimp only at hd
    split_ifs at hd
    exact hdraw _ hd
  · exact hdraw _ hd

/-- The cell of a character, after its own turn, is in view and holds it. -/
theorem inkScroll_inkDraw (hrow : m.cursorRow < vgaHeight) (hcol : m.cursorCol < vgaWidth)
    (hc : Drawn c) (ink : Ink) :
    ∃ k < vgaHeight * vgaWidth, inkScroll (drawChar c m) (inkDraw c m ink) k = some c ∧
      (VgaStep.scrollIfFull.run (drawChar c m)).cells k = vgaEntry c m.colorByte := by
  have hcell := cell_lt hrow hcol
  have hink : inkDraw c m ink (m.cursorRow * vgaWidth + m.cursorCol) = some c := by
    rw [inkDraw, if_pos hc, Function.update_self]
  have hcells : (drawChar c m).cells (m.cursorRow * vgaWidth + m.cursorCol) =
      vgaEntry c m.colorByte := by
    rw [drawChar_cells, if_pos hc, Function.update_self]
  rw [VgaStep.run, inkScroll]
  split_ifs with hfull
  · -- the cell has moved up with its row, which was not the first one
    have hback : m.cursorRow * vgaWidth + m.cursorCol - vgaWidth + vgaWidth =
        m.cursorRow * vgaWidth + m.cursorCol := by
      have hle := drawChar_cursorRow_le c m
      simp only [vgaHeight, vgaWidth] at *
      omega
    have hmoved : m.cursorRow * vgaWidth + m.cursorCol - vgaWidth < (vgaHeight - 1) * vgaWidth := by
      simp only [vgaHeight, vgaWidth] at *
      omega
    refine ⟨m.cursorRow * vgaWidth + m.cursorCol - vgaWidth, by omega, ?_, ?_⟩
    · dsimp only
      rw [if_pos hmoved, hback, hink]
    · rw [scroll_cells_moved hmoved, hback, hcells]
  · exact ⟨_, hcell, hink, hcells⟩

/-! ## The text -/

theorem textSteps_colorByte (str : List UInt8) (m : Machine) :
    (runVgaSteps (textSteps str) m).colorByte = m.colorByte := by
  induction str generalizing m with
  | nil => rfl
  | cons c str ih =>
    rw [runVgaSteps_textSteps_cons, ih, scrollIfFull_colorByte, drawChar_colorByte]

theorem runVgaSteps_textSteps_append (str str' : List UInt8) (m : Machine) :
    runVgaSteps (textSteps (str ++ str')) m =
      runVgaSteps (textSteps str') (runVgaSteps (textSteps str) m) := by
  rw [textSteps, List.flatMap_append]
  exact List.foldl_append

theorem inkText_append (str str' : List UInt8) (m : Machine) (ink : Ink) :
    inkText (str ++ str') m ink =
      inkText str' (runVgaSteps (textSteps str) m) (inkText str m ink) := by
  induction str generalizing m ink with
  | nil => rfl
  | cons c str ih => exact ih _ _

/-- **A text**, seen from its cells. -/
theorem DrawnAs.text (h : DrawnAs ink m) (str : List UInt8) :
    DrawnAs (inkText str m ink) (runVgaSteps (textSteps str) m) := by
  induction str generalizing m ink with
  | nil => exact h
  | cons c str ih =>
    rw [runVgaSteps_textSteps_cons, inkText]
    exact ih (h.draw c).scrollIfFull

theorem mem_of_inkText {k : Nat} {d : UInt8} (hd : inkText str m ink k = some d) :
    d ∈ str ∧ Drawn d ∨ ∃ k', ink k' = some d := by
  induction str generalizing m ink with
  | nil => exact .inr ⟨k, hd⟩
  | cons c str ih =>
    rcases ih hd with ⟨hmem, hdrawn⟩ | ⟨k', hd'⟩
    · exact .inl ⟨List.mem_cons_of_mem c hmem, hdrawn⟩
    · rcases mem_of_inkScroll_inkDraw hd' with ⟨rfl, hdrawn⟩ | hold
      · exact .inl ⟨List.mem_cons_self, hdrawn⟩
      · exact .inr hold

/-- Characters that are drawn are in the current colour if they are below 0x80. -/
theorem DrawnAs.inColour (h : DrawnAs ink m)
    (hink : ∀ k c, ink k = some c → c < 0x80 ∨ m.colorByte = 0xFF) : InColour ink m := by
  intro k hk c hc
  rw [h k hk c hc]
  exact ⟨vgaEntry_low _ _, vgaEntry_high_iff.mpr (hink k c hc)⟩

/-- The last character of a text that is in its colour. -/
theorem InColour.last (hrow : m.cursorRow < vgaHeight) (hcol : m.cursorCol < vgaWidth)
    (h : InColour (inkText (str ++ [c]) m ink) (runVgaSteps (textSteps (str ++ [c])) m))
    (hc : Drawn c) : c < 0x80 ∨ m.colorByte = 0xFF := by
  obtain ⟨hrow', hcol'⟩ := textSteps_bounds str hrow hcol
  rw [inkText_append, runVgaSteps_textSteps_append] at h
  obtain ⟨k, hk, hink, hcell⟩ := inkScroll_inkDraw hrow' hcol' hc (inkText str m ink)
  have hhigh : ((VgaStep.scrollIfFull.run
      (drawChar c (runVgaSteps (textSteps str) m))).cells k >>> 8).toUInt8 = _ := (h k hk c hink).2
  rw [hcell, textSteps_colorByte, textSteps_colorByte, textSteps_colorByte] at hhigh
  exact vgaEntry_high_iff.mp hhigh

/-- The ink only depends on the screen. -/
theorem inkText_screen (str : List UInt8) (m : Machine) (ink : Ink) :
    inkText str m.screen ink = inkText str m ink := by
  induction str generalizing m ink with
  | nil => rfl
  | cons c str ih =>
    have hdraw : inkDraw c m.screen ink = inkDraw c m ink := by
      unfold inkDraw
      rw [← cursorBack_screen]
      rfl
    rw [inkText, inkText, hdraw, ← drawChar_screen, ← scrollIfFull_screen, ih]
    rfl

theorem runCalls_text {calls : List VgaCall} (hlock : m.locked = false) (h : Writes str calls) :
    ∃ m', runCalls calls m = some m' ∧ m'.screen = runVgaSteps (textSteps str) m.screen := by
  rcases h with ⟨rfl, hnul⟩ | rfl
  · have htake : str.takeWhile (· ≠ 0) = str :=
      List.takeWhile_eq_self_iff.mpr fun c hc => decide_eq_true (hnul c hc)
    obtain ⟨m', hrun, -, hscreen, -⟩ := VgaCall.run_text (.write str) str
      (by rw [VgaCall.body, vgaWrite, htake]; rfl) hlock
    refine ⟨m', ?_, hscreen⟩
    rw [runCalls, List.foldlM_cons, hrun]
    rfl
  · obtain ⟨m', hrun, hscreen, -⟩ := runCalls_putChars str hlock
    exact ⟨m', hrun, hscreen⟩

theorem inColour_screen : InColour ink m.screen ↔ InColour ink m := Iff.rfl

/-- The characters that a text has left in view, after any calls that write it. -/
theorem runCalls_drawnAs {calls : List VgaCall} (hlock : m.locked = false)
    (h : Writes str calls) : ∃ m', runCalls calls m = some m' ∧
      m'.colorByte = m.colorByte ∧ DrawnAs (inkText str m fun _ => none) m' := by
  obtain ⟨m', hrun, hscreen⟩ := runCalls_text hlock h
  have hnone : DrawnAs (fun _ => none) m.screen := fun k _ c hc => by cases hc
  have hdrawn := hnone.text str
  rw [← hscreen, inkText_screen] at hdrawn
  refine ⟨m', hrun, ?_, hdrawn⟩
  calc m'.colorByte = (runVgaSteps (textSteps str) m.screen).colorByte := by rw [← hscreen]; rfl
    _ = m.colorByte := textSteps_colorByte str m.screen

/-- **When text is drawn in the current colour.**  From any terminal with the cursor on the
screen a text is written, with `vga_write` or with one `vga_put_char` for each character.
After each of its characters, all of them that are in view are the low bytes of their
cells, with the current colour above, if and only if each character that is drawn is below
0x80 or the colour is 0xFF.  Rows that scroll keep all their cells.  The low byte is right for
every text, and the high byte of a character from 0x80 on is 0xFF. -/
theorem text_in_colour_iff (str : List UInt8) (hlock : m.locked = false)
    (hrow : m.cursorRow < vgaHeight) (hcol : m.cursorCol < vgaWidth) :
    (∀ y x, y + 1 < vgaHeight → x < vgaWidth →
      (scroll m).cells (y * vgaWidth + x) = m.cells ((y + 1) * vgaWidth + x)) ∧
    ((∀ pre calls, pre <+: str → Writes pre calls → ∃ m', runCalls calls m = some m' ∧
        InColour (inkText pre m fun _ => none) m') ↔
      ∀ c ∈ str, Drawn c → c < 0x80 ∨ m.colorByte = 0xFF) ∧
    ∀ pre calls, pre <+: str → Writes pre calls → ∃ m', runCalls calls m = some m' ∧
      ∀ k < vgaHeight * vgaWidth, ∀ c, inkText pre m (fun _ => none) k = some c →
        (m'.cells k).toUInt8 = c ∧
          (m'.cells k >>> 8).toUInt8 = if c < 0x80 then m.colorByte else 0xFF := by
  refine ⟨fun y x hy hx => ?_, ⟨fun h c hc hdrawn => ?_, fun h pre calls hpre hcalls => ?_⟩,
    fun pre calls hpre hcalls => ?_⟩
  · rw [scroll_cells (by omega) hx, if_neg (by omega)]
  · obtain ⟨xs, ys, rfl⟩ := List.append_of_mem hc
    obtain ⟨m', hrun, hin⟩ := h (xs ++ [c]) _ ⟨ys, by simp⟩ (Or.inr rfl)
    obtain ⟨m'', hrun', hscreen⟩ := runCalls_text hlock (Or.inr rfl : Writes (xs ++ [c]) _)
    obtain rfl := Option.some.inj (hrun.symm.trans hrun')
    rw [← inColour_screen, hscreen, ← inkText_screen] at hin
    exact InColour.last (m := m.screen) hrow hcol hin hdrawn
  · obtain ⟨m', hrun, hcolour, hdrawn⟩ := runCalls_drawnAs hlock hcalls
    refine ⟨m', hrun, hdrawn.inColour fun k c hc => ?_⟩
    rcases mem_of_inkText hc with ⟨hmem, hdrawn'⟩ | ⟨k', hnone⟩
    · exact hcolour.symm ▸ h c (hpre.subset hmem) hdrawn'
    · cases hnone
  · obtain ⟨m', hrun, hcolour, hdrawn⟩ := runCalls_drawnAs hlock hcalls
    refine ⟨m', hrun, fun k hk c hc => ?_⟩
    rw [hdrawn k hk c hc, vgaEntry_high, hcolour]
    exact ⟨vgaEntry_low _ _, rfl⟩

/-- An ASCII text in light grey. -/
theorem text_in_colour_ascii : ∃ m',
    runCalls [.write [0x41, 0x42]] ⟨fun _ => 0, 3, 5, 0x07, false, 0, []⟩ = some m' ∧
      (m'.cells 246).toUInt8 = 0x42 ∧ (m'.cells 246 >>> 8).toUInt8 = m'.colorByte := by
  obtain ⟨m', hrun, hin⟩ := (text_in_colour_iff (m := ⟨fun _ => 0, 3, 5, 0x07, false, 0, []⟩)
    [0x41, 0x42] rfl (by decide) (by decide)).2.1.mpr (by simp) [0x41, 0x42] _ List.prefix_rfl
    (Or.inl ⟨rfl, by simp⟩)
  exact ⟨m', hrun, hin 246 (by decide) 0x42 rfl⟩

/-- The first byte of a UTF-8 text in light grey is drawn in 0xFF. -/
theorem utf8_not_in_colour : ∃ m',
    runCalls [.write [0xE2]] ⟨fun _ => 0, 0, 0, 0x07, false, 0, []⟩ = some m' ∧
      m'.cells 0 = 0xFFE2 ∧
      ¬ InColour (inkText [0xE2] ⟨fun _ => 0, 0, 0, 0x07, false, 0, []⟩ fun _ => none) m' := by
  refine ⟨_, rfl, rfl, fun h => ?_⟩
  have hhigh := (h 0 (by decide) 0xE2 rfl).2
  exact absurd hhigh (by decide)

end OsKernel
