import Mathlib.Logic.Function.Basic

/-! # Text on an unbounded grid

A text is a list of marks.  Laying it out on a grid that is `width` columns wide
and has no last row is what a terminal does when it never has to scroll.  A
terminal of `height` rows shows the last rows of this grid (`view`).

Only going to the next row can move the view.  While the rows fit, it does not
move (`view_advance_of_lt`); afterwards it moves by one row (`view_advance_of_ge`),
and the row that comes into view is blank (`view_advance_last`).
-/
namespace OsKernel

/-- One character of a text: what it asks for. -/
inductive Mark (α : Type*)
  | newline
  | carriageReturn
  | tab
  | print (a : α)

/-- A grid of written and unwritten positions, and where the next character goes. -/
structure Layout (α : Type*) where
  grid : Nat → Nat → Option α
  row : Nat
  col : Nat

variable {α : Type*} {l : Layout α} {width height tab : Nat}

namespace Layout

/-- Nothing is written yet. -/
def blank : Layout α := ⟨fun _ _ => none, 0, 0⟩

/-- Go to the start of the next row. -/
def advance (l : Layout α) : Layout α := { l with row := l.row + 1, col := 0 }

/-- Go to a column of the same row, or to the next row when there is no such column. -/
def moveTo (width col : Nat) (l : Layout α) : Layout α :=
  if col < width then { l with col := col } else l.advance

/-- Write at the current position. -/
def write (a : α) (l : Layout α) : Layout α :=
  { l with grid := fun row col => if row = l.row ∧ col = l.col then some a else l.grid row col }

/-- Lay out one mark more. -/
def put (width tab : Nat) (l : Layout α) : Mark α → Layout α
  | .newline => l.advance
  | .carriageReturn => { l with col := 0 }
  | .tab => l.moveTo width ((l.col / tab + 1) * tab)
  | .print a => (l.write a).moveTo width (l.col + 1)

/-- The rows below the current one are unwritten. -/
def BlankBelow (l : Layout α) : Prop := ∀ row col, l.row < row → l.grid row col = none

/-- The first of the last `height` rows. -/
def top (height : Nat) (l : Layout α) : Nat := l.row + 1 - height

/-- The last `height` rows. -/
def view (height : Nat) (l : Layout α) (y x : Nat) : Option α := l.grid (l.top height + y) x

/-- The current row, counted from the first row in view. -/
def viewRow (height : Nat) (l : Layout α) : Nat := l.row - l.top height

/-! ## Blank rows -/

theorem blankBelow_blank : (blank : Layout α).BlankBelow := fun _ _ _ => rfl

theorem BlankBelow.advance (h : l.BlankBelow) : l.advance.BlankBelow :=
  fun row col hrow => h row col (Nat.lt_of_succ_lt hrow)

theorem BlankBelow.write (h : l.BlankBelow) (a : α) : (l.write a).BlankBelow := by
  intro row col hrow
  have hne : ¬ (row = l.row ∧ col = l.col) := fun he => Nat.ne_of_gt hrow he.1
  exact (if_neg hne).trans (h row col hrow)

/-! ## The view -/

theorem viewRow_lt (hheight : 0 < height) (l : Layout α) : l.viewRow height < height := by
  rw [viewRow, top]
  omega

theorem top_add_viewRow (hheight : 0 < height) (l : Layout α) :
    l.top height + l.viewRow height = l.row := by
  rw [viewRow, top]
  omega

/-- Writing changes one position in view. -/
theorem view_write (hheight : 0 < height) (a : α) (y x : Nat) :
    (l.write a).view height y x =
      if y = l.viewRow height ∧ x = l.col then some a else l.view height y x := by
  have hrow := top_add_viewRow hheight l
  have hiff : (l.top height + y = l.row ∧ x = l.col) ↔ (y = l.viewRow height ∧ x = l.col) := by
    omega
  change (if l.top height + y = l.row ∧ x = l.col then some a else l.grid _ x) = _
  simp only [hiff]
  rfl

theorem view_advance_of_lt (h : l.row + 1 < height) (y x : Nat) :
    l.advance.view height y x = l.view height y x := by
  have htop : l.advance.top height = l.top height := by
    simp only [top, Layout.advance]
    omega
  rw [view, htop]
  rfl

theorem viewRow_advance_of_lt (h : l.row + 1 < height) :
    l.advance.viewRow height = l.viewRow height + 1 := by
  simp only [viewRow, top, Layout.advance]
  omega

theorem view_advance_of_ge (h : height ≤ l.row + 1) (y x : Nat) :
    l.advance.view height y x = l.view height (y + 1) x := by
  have htop : l.advance.top height = l.top height + 1 := by
    simp only [top, Layout.advance]
    omega
  rw [view, htop, view, Nat.add_right_comm]
  rfl

theorem viewRow_advance_of_ge (hheight : 0 < height) (h : height ≤ l.row + 1) :
    l.advance.viewRow height = height - 1 := by
  simp only [viewRow, top, Layout.advance]
  omega

/-- The row that comes into view is blank. -/
theorem view_advance_last (hblank : l.BlankBelow) (hheight : 0 < height)
    (h : height ≤ l.row + 1) (x : Nat) : l.advance.view height (height - 1) x = none := by
  apply hblank
  simp only [top, Layout.advance]
  omega

end Layout

/-- **The layout of a text.** -/
def layOut (width tab : Nat) (text : List (Mark α)) : Layout α :=
  text.foldl (Layout.put width tab) .blank

end OsKernel
