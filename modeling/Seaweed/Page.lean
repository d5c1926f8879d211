import Seaweed.Vga

/-! What the screen is a part of: a page of 80 columns that never ends. It has the rules
of the terminal but nothing ever scrolls away. -/

namespace Seaweed

structure Page where
  cells : ℕ → ℕ → UInt16
  row : ℕ
  col : ℕ

namespace Page

def clear (attr : UInt8) : Page := ⟨fun _ _ => entry 32 attr, 0, 0⟩

def lineDown (p : Page) : Page := { p with row := p.row + 1, col := 0 }

/-- Puts a value into the cells of the current row from the cursor up to a column. -/
def fillTo (p : Page) (target : ℕ) (value : UInt16) : Page where
  cells := fun r c => if r = p.row ∧ p.col ≤ c ∧ c < target then value else p.cells r c
  row := p.row
  col := target

def wrapped (p : Page) : Page := if vgaWidth ≤ p.col then p.lineDown else p

def putchar (attr : UInt8) (p : Page) (c : UInt8) : Page :=
  if c = 10 then p.lineDown
  else if c = 13 then { p with col := 0 }
  else if c = 9 then (p.fillTo ((p.col + 8) / 8 * 8) (entry 32 attr)).wrapped
  else (p.fillTo (p.col + 1) (entry c attr)).wrapped

/-- The first of the 25 rows that end at the cursor's, or row 0. -/
def top (p : Page) : ℕ := p.row - (vgaHeight - 1)

end Page

/-- The screen shows 25 rows of the page. -/
structure Shows (p : Page) (v : Vga) : Prop where
  cells : ∀ r c, r < vgaHeight → c < vgaWidth → v.cells (r * vgaWidth + c) = p.cells (p.top + r) c
  row : v.row = p.row - p.top
  col : v.col = p.col

end Seaweed
