import Seaweed.Library.Loops

/-! `drivers/vga.c`: the text screen as the cells from `VGA_MEMORY` on. A store or a load
outside the 80 by 25 cells of the screen answers `none`. -/

namespace Seaweed
open Library

abbrev vgaWidth : ℕ := 80
abbrev vgaHeight : ℕ := 25

/-- The screen, the static variables of `vga.c` and the two cursor registers of the CRT
controller. `scrolls` counts the calls of `scroll`; the code does not keep it. -/
structure Vga where
  cells : ℕ → UInt16
  row : ℕ
  col : ℕ
  color : UInt8
  cursorLow : UInt8
  cursorHigh : UInt8
  scrolls : ℕ

def entry (c attr : UInt8) : UInt16 := c.toUInt16 ||| (attr.toUInt16 <<< 8)

def Vga.blank (v : Vga) : UInt16 := entry 32 v.color

def poke (v : Vga) (i : ℕ) (value : UInt16) : Option Vga :=
  if i < vgaHeight * vgaWidth then some { v with cells := Function.update v.cells i value } else none

def peek (v : Vga) (i : ℕ) : Option UInt16 := if i < vgaHeight * vgaWidth then some (v.cells i) else none

/-- The card takes one flat number in two registers. -/
def updateCursor (v : Vga) : Vga :=
  let pos := UInt16.ofNat (v.row * vgaWidth + v.col)
  { v with cursorLow := (pos &&& 0xFF).toUInt8, cursorHigh := ((pos >>> 8) &&& 0xFF).toUInt8 }

def vgaSetColor (v : Vga) (fg bg : UInt8) : Vga := { v with color := fg ||| (bg <<< 4) }

def vgaClear (v : Vga) : Option Vga := do
  let v ← forCount (fun y => forCount (fun x v => poke v (y * vgaWidth + x) v.blank) 0 vgaWidth) 0 vgaHeight v
  some (updateCursor { v with row := 0, col := 0 })

def vgaInit (v : Vga) : Option Vga := vgaClear (vgaSetColor v 7 0)

/-- Copies every line up in place and blanks the bottom one. -/
def scroll (v : Vga) : Option Vga := do
  let v ← forCount (fun y => forCount (fun x v => do
    let value ← peek v (y * vgaWidth + x)
    poke v ((y - 1) * vgaWidth + x) value) 0 vgaWidth) 1 (vgaHeight - 1) v
  let v ← forCount (fun x v => poke v ((vgaHeight - 1) * vgaWidth + x) v.blank) 0 vgaWidth v
  some { v with row := vgaHeight - 1, scrolls := v.scrolls + 1 }

/-- `col = 0; if (++row == VGA_HEIGHT) scroll();` -/
def newLine (v : Vga) : Option Vga :=
  let v := { v with col := 0, row := v.row + 1 }
  if v.row = vgaHeight then scroll v else some v

def backspace (v : Vga) : Option Vga :=
  if 0 < v.col then
    let v := { v with col := v.col - 1 }
    poke v (v.row * vgaWidth + v.col) v.blank
  else if 0 < v.row then
    let v := { v with row := v.row - 1, col := vgaWidth - 1 }
    poke v (v.row * vgaWidth + v.col) v.blank
  else some v

/-- The loop of `tab`. It answers `none` when its fuel runs out. -/
def tabFrom (target : ℕ) : ℕ → Vga → Option Vga
  | 0, _ => none
  | fuel + 1, v =>
    if v.col < target ∧ v.col < vgaWidth then do
      let v ← poke v (v.row * vgaWidth + v.col) v.blank
      tabFrom target fuel { v with col := v.col + 1 }
    else some v

/-- The target is `col + 8` without its three low bits. -/
def tab (v : Vga) : Option Vga := do
  let v ← tabFrom ((v.col + 8) / 8 * 8) (vgaWidth + 1) v
  if vgaWidth ≤ v.col then newLine v else some v

def vgaPutchar (v : Vga) (c : UInt8) : Option Vga := do
  let v ←
    if c = 10 then newLine v
    else if c = 13 then some { v with col := 0 }
    else if c = 8 then backspace v
    else if c = 9 then tab v
    else do
      let v ← poke v (v.row * vgaWidth + v.col) (entry c v.color)
      let v := { v with col := v.col + 1 }
      if v.col = vgaWidth then newLine v else some v
  some (updateCursor v)

/-- The characters of a string up to its terminator, one after another. -/
def vgaWrite (v : Vga) (text : List UInt8) : Option Vga := text.foldlM vgaPutchar v

def vgaCursorLeft (v : Vga) : Vga :=
  updateCursor <|
    if 0 < v.col then { v with col := v.col - 1 }
    else if 0 < v.row then { v with row := v.row - 1, col := vgaWidth - 1 }
    else v

def vgaCursorRight (v : Vga) : Vga :=
  updateCursor <|
    if v.col < vgaWidth - 1 then { v with col := v.col + 1 }
    else if v.row < vgaHeight - 1 then { v with row := v.row + 1, col := 0 }
    else v

def vgaCursorUp (v : Vga) : Vga := updateCursor <| if 0 < v.row then { v with row := v.row - 1 } else v

def vgaCursorDown (v : Vga) : Vga := updateCursor <| if v.row < vgaHeight - 1 then { v with row := v.row + 1 } else v

/-- What the rest of the kernel may ask of the screen after `vga_init`. -/
inductive VgaCall where
  | putchar (c : UInt8)
  | write (text : List UInt8)
  | clear
  | setColor (fg bg : UInt8)
  | cursorLeft | cursorRight | cursorUp | cursorDown

def VgaCall.step (v : Vga) : VgaCall → Option Vga
  | .putchar c => vgaPutchar v c
  | .write text => vgaWrite v text
  | .clear => vgaClear v
  | .setColor fg bg => some (vgaSetColor v fg bg)
  | .cursorLeft => some (vgaCursorLeft v)
  | .cursorRight => some (vgaCursorRight v)
  | .cursorUp => some (vgaCursorUp v)
  | .cursorDown => some (vgaCursorDown v)

def runVga (v : Vga) (calls : List VgaCall) : Option Vga := calls.foldlM VgaCall.step v

end Seaweed
