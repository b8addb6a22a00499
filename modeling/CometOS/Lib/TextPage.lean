import Mathlib.Tactic

/-!
# An unbounded page seen through a window

A page has a cell for each line and column and a cursor that writes into them.  Its window of a given
height shows the lines that end with the cursor's, or the first ones as long as there are no more.
Moving to a new line leaves the window alone or moves it up by one line; writing changes the cell
under the cursor.
-/

/-- Lines, columns and the cursor among them. -/
structure TextPage (α : Type*) where
  line : ℕ
  col : ℕ
  cells : ℕ → ℕ → α

namespace TextPage

variable {α : Type*}

/-- A page with nothing on it. -/
def empty (blank : α) : TextPage α := ⟨0, 0, fun _ _ => blank⟩

def newline (p : TextPage α) : TextPage α := { p with line := p.line + 1, col := 0 }

def carriageReturn (p : TextPage α) : TextPage α := { p with col := 0 }

/-- Write at the cursor, and move it one column on. -/
def write (a : α) (p : TextPage α) : TextPage α :=
  { p with
    col := p.col + 1
    cells := fun l x => if l = p.line ∧ x = p.col then a else p.cells l x }

/-- Write at the cursor, on a new line if this one is full. -/
def put (width : ℕ) (a : α) (p : TextPage α) : TextPage α :=
  (if p.col = width then p.newline else p).write a

/-- Go to a new line, which is filled if it is at the end of a window that moves. -/
def feed (height : ℕ) (a : α) (p : TextPage α) : TextPage α :=
  { p.newline with
    cells := fun l x => if height ≤ p.line + 1 ∧ l = p.line + 1 then a else p.cells l x }

/-- The line at the top of a window `height` lines high. -/
def top (height : ℕ) (p : TextPage α) : ℕ := p.line + 1 - height

/-- The cursor's row in the window. -/
def row (height : ℕ) (p : TextPage α) : ℕ := min p.line (height - 1)

/-- What the window shows. -/
def window (height : ℕ) (p : TextPage α) (r x : ℕ) : α := p.cells (p.top height + r) x

/-- Nothing has been written below the cursor's line. -/
def BlankBelow (blank : α) (p : TextPage α) : Prop := ∀ l x, p.line < l → p.cells l x = blank

variable {p : TextPage α} {height : ℕ} {blank : α}

theorem blankBelow_empty : (empty blank).BlankBelow blank := fun _ _ _ => rfl

theorem BlankBelow.newline (h : p.BlankBelow blank) : p.newline.BlankBelow blank := by
  intro l x hl
  have hline : p.newline.line = p.line + 1 := rfl
  exact h l x (by omega)

theorem BlankBelow.write (h : p.BlankBelow blank) (a : α) : (p.write a).BlankBelow blank := by
  intro l x hl
  have hl' : p.line < l := hl
  show (if l = p.line ∧ x = p.col then a else p.cells l x) = blank
  rw [if_neg (by omega)]
  exact h l x hl'

theorem row_newline_of_lt (h : p.line + 1 < height) : p.newline.row height = p.row height + 1 := by
  show min (p.line + 1) (height - 1) = min p.line (height - 1) + 1
  omega

theorem row_newline_of_le (h : height ≤ p.line + 1) : p.newline.row height = p.row height := by
  show min (p.line + 1) (height - 1) = min p.line (height - 1)
  omega

/-- While there is room, a new line does not move the window. -/
theorem window_newline_of_lt (h : p.line + 1 < height) :
    p.newline.window height = p.window height := by
  have htop : p.newline.top height = p.top height := by
    show p.line + 1 + 1 - height = p.line + 1 - height
    omega
  funext r x
  show p.cells (p.newline.top height + r) x = p.cells (p.top height + r) x
  rw [htop]

/-- Then it moves the window up by one line. -/
theorem window_newline_of_le (h : height ≤ p.line + 1) (r x : ℕ) :
    p.newline.window height r x = p.window height (r + 1) x := by
  show p.cells (p.line + 1 + 1 - height + r) x = p.cells (p.line + 1 - height + (r + 1)) x
  rw [show p.line + 1 + 1 - height + r = p.line + 1 - height + (r + 1) by omega]

/-- Where nothing has been written there is nothing to fill. -/
theorem feed_eq_newline (hb : p.BlankBelow blank) : p.feed height blank = p.newline := by
  have hcells : (p.feed height blank).cells = p.newline.cells := by
    funext l x
    show (if height ≤ p.line + 1 ∧ l = p.line + 1 then blank else p.cells l x) = p.cells l x
    by_cases hl : height ≤ p.line + 1 ∧ l = p.line + 1
    · rw [if_pos hl, hb l x (by omega)]
    · rw [if_neg hl]
  exact congrArg (fun c => { p.newline with cells := c }) hcells

theorem window_feed_of_lt (h : p.line + 1 < height) (a : α) :
    (p.feed height a).window height = p.window height := by
  rw [← window_newline_of_lt h]
  funext r x
  show (if height ≤ p.line + 1 ∧ p.newline.top height + r = p.line + 1 then a
    else p.cells (p.newline.top height + r) x) = p.cells (p.newline.top height + r) x
  rw [if_neg (by omega)]

theorem window_feed_of_le (h : height ≤ p.line + 1) (a : α) (r x : ℕ) :
    (p.feed height a).window height r x =
      if r + 1 = height then a else p.window height (r + 1) x := by
  rw [← window_newline_of_le h]
  have hlast : (height ≤ p.line + 1 ∧ p.newline.top height + r = p.line + 1) ↔ r + 1 = height := by
    show (height ≤ p.line + 1 ∧ p.line + 1 + 1 - height + r = p.line + 1) ↔ r + 1 = height
    omega
  show (if height ≤ p.line + 1 ∧ p.newline.top height + r = p.line + 1 then a
    else p.cells (p.newline.top height + r) x) = _
  simp only [hlast]
  rfl

/-- Writing changes the cell under the cursor. -/
theorem window_write (h : 0 < height) (a : α) (r x : ℕ) : (p.write a).window height r x =
    if r = p.row height ∧ x = p.col then a else p.window height r x := by
  have hrow : r = p.row height ↔ p.top height + r = p.line := by
    show r = min p.line (height - 1) ↔ p.line + 1 - height + r = p.line
    omega
  simp only [hrow]
  rfl

end TextPage
