import OsKernel.VgaColour

/-! # Backspaces undo typing

Cells are counted from the top of the screen as it was before the typing, row after row
and without end: below the screen lie the blank rows that scrolling adds.  In this count a
character that is typed goes to the next cell and a backspace to the one before, whether
the line wraps or the screen scrolls; scrolling only moves the view.  `Typed` is the
invariant.
-/
namespace OsKernel

/-- The cell of the cursor. -/
def Machine.cursorCell (m : Machine) : Nat := m.cursorRow * vgaWidth + m.cursorCol

/-- The cells of the terminal, and below its screen the rows that scrolling adds. -/
def paper (m : Machine) (a : Nat) : UInt16 :=
  if a < vgaHeight * vgaWidth then m.cells a else vgaEntry 0x20 m.colorByte

/-- The paper with characters put over it, from the cursor on. -/
def overlay (m : Machine) (text : Nat → Option UInt8) (a : Nat) : UInt16 :=
  if m.cursorCell ≤ a then
    match text (a - m.cursorCell) with
    | some c => vgaEntry c m.colorByte
    | none => paper m a
  else paper m a

/-- How often the screen scrolls while a text is written. -/
def scrollCount : List UInt8 → Machine → Nat
  | [], _ => 0
  | c :: str, m =>
    (if (drawChar c m).cursorRow ≥ vgaHeight then 1 else 0) +
      scrollCount str (VgaStep.scrollIfFull.run (drawChar c m))

/-- The cell where the cursor was before a text, as it stands after it. -/
def startCell (str : List UInt8) (m : Machine) : Nat :=
  (m.cursorRow - scrollCount str m) * vgaWidth + m.cursorCol

/-- **Where typing has led** from `m₀`: the screen, which has scrolled `k` times, shows
the paper of `m₀` under the text, and the cursor is `pos` cells behind its first place. -/
structure Typed (m₀ : Machine) (text : Nat → Option UInt8) (pos k : Nat) (m : Machine) :
    Prop where
  cells : ∀ j < vgaHeight * vgaWidth, m.cells j = overlay m₀ text (j + k * vgaWidth)
  cursor : m.cursorCell + k * vgaWidth = m₀.cursorCell + pos
  row_lt : m.cursorRow < vgaHeight
  col_lt : m.cursorCol < vgaWidth
  colorByte : m.colorByte = m₀.colorByte

variable {m₀ m : Machine} {text : Nat → Option UInt8} {pos k : Nat} {c : UInt8} {str : List UInt8}

theorem overlay_update (m : Machine) (text : Nat → Option UInt8) (pos : Nat) (c : UInt8)
    (a : Nat) :
    overlay m (Function.update text pos (some c)) a =
      if a = m.cursorCell + pos then vgaEntry c m.colorByte else overlay m text a := by
  unfold overlay
  by_cases hle : m.cursorCell ≤ a
  · rw [if_pos hle, if_pos hle]
    by_cases hpos : a = m.cursorCell + pos
    · rw [if_pos hpos, hpos, Nat.add_sub_cancel_left, Function.update_self]
    · rw [if_neg hpos, Function.update_of_ne (by omega)]
  · rw [if_neg hle, if_neg hle, if_neg (by omega)]

theorem overlay_some {i : Nat} (h : text i = some c) :
    overlay m text (m.cursorCell + i) = vgaEntry c m.colorByte := by
  rw [overlay, if_pos (Nat.le_add_right _ _), Nat.add_sub_cancel_left, h]

theorem overlay_none {a : Nat} (h : m.cursorCell ≤ a → text (a - m.cursorCell) = none) :
    overlay m text a = paper m a := by
  rw [overlay]
  split_ifs with hle
  · rw [h hle]
  · rfl

theorem typed_start (hrow : m.cursorRow < vgaHeight) (hcol : m.cursorCol < vgaWidth) :
    Typed m (fun _ => none) 0 0 m := by
  refine ⟨fun j hj => ?_, by omega, hrow, hcol, rfl⟩
  rw [overlay_none fun _ => rfl, paper, Nat.zero_mul, Nat.add_zero, if_pos hj]

/-- Writing into the cell `pos` behind the start. -/
theorem Typed.store {p j i : Nat} (h : Typed m₀ text p k m)
    (hi : i + k * vgaWidth = m₀.cursorCell + pos) (hj : j < vgaHeight * vgaWidth) :
    Function.update m.cells i (vgaEntry c m.colorByte) j =
      overlay m₀ (Function.update text pos (some c)) (j + k * vgaWidth) := by
  rw [overlay_update]
  by_cases hpos : j = i
  · rw [hpos, Function.update_self, if_pos hi, h.colorByte]
  · rw [Function.update_of_ne hpos, if_neg (by omega), h.cells j hj]

theorem drawChar_cursor (hc : Drawn c) (m : Machine) :
    (drawChar c m).cursorRow = (if m.cursorCol + 1 ≥ vgaWidth then m.cursorRow + 1 else m.cursorRow)
      ∧ (drawChar c m).cursorCol = if m.cursorCol + 1 ≥ vgaWidth then 0 else m.cursorCol + 1 := by
  obtain ⟨hnewline, hback, htab, hreturn⟩ := hc
  unfold drawChar setCell
  rw [if_neg hnewline, if_neg hback, if_neg htab, if_neg hreturn]
  dsimp only
  split_ifs <;> exact ⟨rfl, rfl⟩

theorem drawChar_cursorCell (hc : Drawn c) (hcol : m.cursorCol < vgaWidth) :
    (drawChar c m).cursorCell = m.cursorCell + 1 := by
  obtain ⟨hrow', hcol'⟩ := drawChar_cursor hc m
  rw [Machine.cursorCell, Machine.cursorCell, hrow', hcol']
  by_cases hwrap : m.cursorCol + 1 ≥ vgaWidth
  · rw [if_pos hwrap, if_pos hwrap, Nat.succ_mul]
    omega
  · rw [if_neg hwrap, if_neg hwrap]
    rfl

/-- A character that leads to the row below the screen leads to its first column. -/
theorem drawChar_cursorCell_full (hc : Drawn c) (hrow : m.cursorRow < vgaHeight)
    (hfull : (drawChar c m).cursorRow = vgaHeight) :
    (drawChar c m).cursorCell = vgaHeight * vgaWidth := by
  obtain ⟨hrow', hcol'⟩ := drawChar_cursor hc m
  have hwrap : m.cursorCol + 1 ≥ vgaWidth := by
    by_contra hwrap
    rw [if_neg hwrap] at hrow'
    omega
  rw [Machine.cursorCell, hfull, hcol', if_pos hwrap, Nat.add_zero]

/-- Scrolling takes the cursor up with the rows. -/
theorem scroll_cursorCell (hrow : m.cursorRow = vgaHeight) :
    (scroll m).cursorCell + vgaWidth = m.cursorCell := by
  rw [Machine.cursorCell, Machine.cursorCell, scroll_eq, hrow]
  change (vgaHeight - 1) * vgaWidth + m.cursorCol + vgaWidth = _
  simp only [vgaHeight, vgaWidth]
  omega

/-- The row that scrolling brings into view is blank paper: the text ends above it. -/
theorem overlay_blank {a p : Nat} (htext : ∀ i, p ≤ i → text i = none)
    (hpos : m.cursorCell + p ≤ a) (hbelow : vgaHeight * vgaWidth ≤ a) :
    overlay m text a = vgaEntry 0x20 m.colorByte := by
  rw [overlay_none fun _ => htext _ (by omega), paper, if_neg (by omega)]

/-- **Typing a character.** -/
theorem Typed.type (h : Typed m₀ text pos k m) (hc : Drawn c)
    (htext : ∀ i, pos ≤ i → text i = none) :
    Typed m₀ (Function.update text pos (some c)) (pos + 1)
      (k + if (drawChar c m).cursorRow ≥ vgaHeight then 1 else 0)
      (VgaStep.scrollIfFull.run (drawChar c m)) := by
  have hnear := nearView_drawChar c h.row_lt h.col_lt
  have hcolor : (drawChar c m).colorByte = m₀.colorByte :=
    (drawChar_colorByte c m).trans h.colorByte
  have hcells : ∀ j < vgaHeight * vgaWidth, (drawChar c m).cells j =
      overlay m₀ (Function.update text pos (some c)) (j + k * vgaWidth) := by
    intro j hj
    rw [drawChar_cells, if_pos hc]
    exact h.store h.cursor hj
  have hcursor : (drawChar c m).cursorCell + k * vgaWidth = m₀.cursorCell + (pos + 1) := by
    rw [drawChar_cursorCell hc h.col_lt]
    have := h.cursor
    omega
  obtain ⟨hrow_lt, hcol_lt⟩ := hnear.scrollIfFull
  refine ⟨fun j hj => ?_, ?_, hrow_lt, hcol_lt, (scrollIfFull_colorByte _).trans hcolor⟩
  · rw [VgaStep.run]
    split_ifs with hfull
    · rw [Nat.succ_mul]
      by_cases hmoved : j < (vgaHeight - 1) * vgaWidth
      · rw [scroll_cells_moved hmoved, hcells _ (by simp only [vgaHeight, vgaWidth] at *; omega),
          Nat.add_right_comm, Nat.add_assoc]
      · -- the cursor is in the row below the screen, and the text ends before it
        have hcell := drawChar_cursorCell_full hc h.row_lt (Nat.le_antisymm hnear.row_le hfull)
        rw [scroll_cells_blank (Nat.not_lt.mp hmoved) hj, hcolor, overlay_blank (p := pos + 1)]
        · intro i hi
          rw [Function.update_of_ne (by omega)]
          exact htext i (by omega)
        · simp only [vgaHeight, vgaWidth] at *
          omega
        · simp only [vgaHeight, vgaWidth] at *
          omega
    · exact hcells j hj
  · rw [VgaStep.run]
    split_ifs with hfull
    · have := scroll_cursorCell (Nat.le_antisymm hnear.row_le hfull)
      rw [Nat.succ_mul]
      omega
    · exact hcursor

theorem cursorBack_cursorCell (h : 0 < m.cursorCell) :
    (cursorBack m).cursorCell + 1 = m.cursorCell := by
  unfold Machine.cursorCell cursorBack at *
  split_ifs with hcol hrow
  · dsimp only
    omega
  · obtain ⟨row, hrow⟩ : ∃ row, m.cursorRow = row + 1 := ⟨m.cursorRow - 1, by omega⟩
    dsimp only
    rw [hrow, Nat.add_sub_cancel, Nat.succ_mul, Nat.eq_zero_of_not_pos hcol]
    rfl
  · rw [Nat.eq_zero_of_not_pos hcol, Nat.eq_zero_of_not_pos hrow] at h
    omega

/-- **A backspace** goes back to the cell of the last character and blanks it, as long as
the screen has not scrolled past the start of the text. -/
theorem Typed.erase (h : Typed m₀ text (pos + 1) k m) (hk : k ≤ m₀.cursorRow) :
    Typed m₀ (Function.update text pos (some 0x20)) pos k
      (VgaStep.scrollIfFull.run (drawChar 0x08 m)) := by
  have hcursor := h.cursor
  have hstart : k * vgaWidth ≤ m₀.cursorCell :=
    (Nat.mul_le_mul_right vgaWidth hk).trans (Nat.le_add_right _ _)
  have hback := cursorBack_cursorCell (m := m) (by omega)
  obtain ⟨hrow, hcol⟩ := cursorBack_bounds h.row_lt h.col_lt
  have hsame : VgaStep.scrollIfFull.run (drawChar 0x08 m) = drawChar 0x08 m :=
    if_neg (Nat.not_le.mpr hrow)
  rw [hsame]
  refine ⟨fun j hj => ?_, ?_, hrow, hcol, (drawChar_colorByte _ m).trans h.colorByte⟩
  · rw [drawChar_cells, if_neg (by decide), if_pos rfl]
    have hcell : (cursorBack m).cursorCell + k * vgaWidth = m₀.cursorCell + pos := by omega
    exact h.store hcell hj
  · change (cursorBack m).cursorCell + k * vgaWidth = _
    omega

/-! ## The text and its backspaces -/

theorem drawn_of_printable (h : 0x20 ≤ c ∧ c ≤ 0x7E) : Drawn c := by
  refine ⟨?_, ?_, ?_, ?_⟩ <;> rintro rfl <;> exact absurd h (by decide)

theorem getElem?_concat_eq_update (old : List UInt8) (c : UInt8) :
    (fun i => (old ++ [c])[i]?) = Function.update (fun i => old[i]?) old.length (some c) := by
  funext i
  by_cases hi : i = old.length
  · rw [hi, Function.update_self, List.getElem?_concat_length]
  · rw [Function.update_of_ne hi]
    by_cases hlt : i < old.length
    · rw [List.getElem?_append_left hlt]
    · rw [List.getElem?_eq_none (by rw [List.length_append, List.length_singleton]; omega),
        List.getElem?_eq_none (by omega)]

/-- Typing a text. -/
theorem Typed.typeAll (old : List UInt8) (h : Typed m₀ (fun i => old[i]?) old.length k m)
    (hstr : ∀ c ∈ str, Drawn c) :
    Typed m₀ (fun i => (old ++ str)[i]?) (old ++ str).length (k + scrollCount str m)
      (runVgaSteps (textSteps str) m) := by
  induction str generalizing old k m with
  | nil =>
    rw [List.append_nil]
    exact h
  | cons c str ih =>
    have hnone : ∀ i, old.length ≤ i → old[i]? = none := fun i hi => List.getElem?_eq_none hi
    have hnext := h.type (hstr c List.mem_cons_self) hnone
    have hlen : old.length + 1 = (old ++ [c]).length := by simp
    rw [← getElem?_concat_eq_update, hlen] at hnext
    have hrest := ih _ hnext fun d hd => hstr d (List.mem_cons_of_mem c hd)
    rw [List.append_assoc, List.singleton_append, Nat.add_assoc] at hrest
    exact hrest

/-- Erasing all of it. -/
theorem Typed.eraseAll (h : Typed m₀ text pos k m) (hk : k ≤ m₀.cursorRow) :
    Typed m₀ (fun i => if i < pos then some 0x20 else text i) 0 k
      (runVgaSteps (textSteps (List.replicate pos 0x08)) m) := by
  induction pos generalizing text m with
  | zero => exact h
  | succ pos ih =>
    have hnext := ih (h.erase hk)
    have hblank : (fun i => if i < pos then some 0x20 else
        Function.update text pos (some 0x20) i) =
          fun i => if i < pos + 1 then some 0x20 else text i := by
      funext i
      by_cases hi : i = pos
      · rw [hi, Function.update_self, if_pos (Nat.lt_succ_self pos), ite_self]
      · rw [Function.update_of_ne hi]
        split_ifs <;> first | rfl | omega
    rw [hblank] at hnext
    exact hnext

/-- With nothing typed any more the cursor is where it started, up by the rows scrolled. -/
theorem Typed.home (h : Typed m₀ text 0 k m) (hcol : m₀.cursorCol < vgaWidth)
    (hk : k ≤ m₀.cursorRow) :
    m.cursorRow = m₀.cursorRow - k ∧ m.cursorCol = m₀.cursorCol := by
  have hcursor := h.cursor
  have hcol' := h.col_lt
  unfold Machine.cursorCell at hcursor
  simp only [vgaWidth] at *
  omega

/-- **Backspaces undo typing.**  From any terminal with the cursor on the screen, `n`
printable characters are written and then `n` backspaces, by one `vga_write` or by one
`vga_put_char` each, and the screen does not scroll past the cell where the cursor was.
The characters go to the `n` cells from that one on, as it stands after the scrolling.
The backspaces bring the cursor back to it and leave these cells blank; all others are
as before, moved up by the rows scrolled, or blank in the rows that scrolling adds. -/
theorem backspace_undoes_typing (str : List UInt8) {calls : List VgaCall} (hlock : m.locked = false)
    (hrow : m.cursorRow < vgaHeight) (hcol : m.cursorCol < vgaWidth)
    (hstr : ∀ c ∈ str, 0x20 ≤ c ∧ c ≤ 0x7E) (hstart : scrollCount str m ≤ m.cursorRow)
    (hcalls : Writes (str ++ List.replicate str.length 0x08) calls) :
    (∀ i c, str[i]? = some c →
      (runVgaSteps (textSteps str) m).cells (startCell str m + i) = vgaEntry c m.colorByte) ∧
    ∃ m', runCalls calls m = some m' ∧
      m'.cursorRow = m.cursorRow - scrollCount str m ∧ m'.cursorCol = m.cursorCol ∧
      m'.colorByte = m.colorByte ∧
      ∀ j < vgaHeight * vgaWidth, m'.cells j =
        if startCell str m ≤ j ∧ j < startCell str m + str.length then vgaEntry 0x20 m.colorByte
        else paper m (j + scrollCount str m * vgaWidth) := by
  have hdrawn : ∀ c ∈ str, Drawn c := fun c hc => drawn_of_printable (hstr c hc)
  have hcell : startCell str m + scrollCount str m * vgaWidth = m.cursorCell := by
    rw [startCell, Machine.cursorCell, Nat.add_right_comm, ← Nat.add_mul, Nat.sub_add_cancel hstart]
  have htyped := Typed.typeAll [] (typed_start hrow hcol) hdrawn
  rw [List.nil_append, Nat.zero_add] at htyped
  have herased := htyped.eraseAll hstart
  rw [← runVgaSteps_textSteps_append] at herased
  obtain ⟨m', hrun, hscreen⟩ := runCalls_text hlock hcalls
  rw [← textSteps_screen] at hscreen
  obtain ⟨hcells, hrow', hcol', hcolor⟩ := Machine.eq_of_screen hscreen
  generalize runVgaSteps (textSteps (str ++ List.replicate str.length 0x08)) m = m₁ at *
  have hhome := herased.home hcol hstart
  refine ⟨fun i c hi => ?_, m', hrun, ?_, ?_, hcolor.trans herased.colorByte, fun j hj => ?_⟩
  · have hlt : i < str.length := (List.getElem?_eq_some_iff.mp hi).1
    have hend := htyped.cursor
    have hview : (runVgaSteps (textSteps str) m).cursorCell < vgaHeight * vgaWidth :=
      cell_lt htyped.row_lt htyped.col_lt
    rw [htyped.cells _ (by omega), Nat.add_right_comm, hcell]
    exact overlay_some hi
  · rw [hrow']
    exact hhome.1
  · rw [hcol']
    exact hhome.2
  · rw [hcells, herased.cells j hj]
    by_cases htext : startCell str m ≤ j ∧ j < startCell str m + str.length
    · obtain ⟨i, rfl⟩ : ∃ i, j = startCell str m + i := ⟨j - startCell str m, by omega⟩
      rw [if_pos htext, Nat.add_right_comm, hcell]
      exact overlay_some (if_pos (by omega))
    · rw [if_neg htext]
      apply overlay_none
      intro hle
      rw [if_neg (by omega), List.getElem?_eq_none (by omega)]

/-- A character in the last cell of the screen, and a backspace. -/
theorem backspace_undoes_last_cell : ∃ m',
    runCalls [.write [0x41, 0x08]] ⟨fun _ => 0x0758, 24, 79, 0x07, false, 0, []⟩ = some m' ∧
      m'.cursorRow = 23 ∧ m'.cursorCol = 79 ∧ m'.cells 1919 = 0x0720 ∧ m'.cells 1918 = 0x0758 ∧
      m'.cells 1920 = 0x0720 := by
  obtain ⟨-, m', hrun, hrow, hcol, -, hcells⟩ := backspace_undoes_typing
    (m := ⟨fun _ => 0x0758, 24, 79, 0x07, false, 0, []⟩) [0x41] rfl (by decide)
    (by decide) (by simp) (by decide) (Or.inl ⟨rfl, by simp⟩)
  exact ⟨m', hrun, hrow, hcol, hcells 1919 (by decide), hcells 1918 (by decide),
    hcells 1920 (by decide)⟩

end OsKernel
