import Seaweed.CString
import Seaweed.Vga

/-! `read_line` of `kernel/shell.c`: the line under the cursor. A store outside the array
`line` answers `none`. -/

namespace Seaweed

abbrev lineMax : ℕ := 256

/-- The array `line`, the variable `length` of `read_line` and the screen. -/
structure LineInput where
  line : Buffer lineMax
  length : ℕ
  screen : Vga

def LineInput.store (s : LineInput) (i : ℕ) (c : UInt8) : Option LineInput :=
  if inside : i < lineMax then some { s with line := Function.update s.line ⟨i, inside⟩ c } else none

/-- One turn of the loop with the key that `keyboard_getchar` returned, 0 for none. The
flag tells whether `read_line` returns. -/
def readKey (s : LineInput) (key : Int32) : Option (Bool × LineInput) :=
  if key = 0 then some (false, s)
  else if key = 10 then do
    let screen ← vgaPutchar s.screen 10
    let s ← { s with screen := screen }.store s.length 0
    some (true, s)
  else if key = 8 then
    if 0 < s.length then do
      let screen ← vgaPutchar s.screen 8
      some (false, { s with length := s.length - 1, screen := screen })
    else some (false, s)
  else if 255 < key ∨ key < 32 then some (false, s)
  else if lineMax - 1 ≤ s.length then some (false, s)
  else do
    let s ← s.store s.length key.toUInt32.toUInt8
    let screen ← vgaPutchar s.screen key.toUInt32.toUInt8
    some (false, { s with length := s.length + 1, screen := screen })

/-- The keys up to the end of the list or of the line. -/
def readKeys (s : LineInput) : List Int32 → Option (Bool × LineInput)
  | [] => some (false, s)
  | key :: rest => do
    let (ended, s) ← readKey s key
    if ended then some (true, s) else readKeys s rest

def readLine (line : Buffer lineMax) (screen : Vga) (keys : List Int32) : Option (Bool × LineInput) :=
  readKeys ⟨line, 0, screen⟩ keys

/-- The line as an editor without a screen holds it. -/
def editKey (held : List UInt8) (key : Int32) : List UInt8 :=
  if key = 8 then held.dropLast
  else if 32 ≤ key ∧ key ≤ 255 ∧ held.length < 255 then held ++ [key.toUInt32.toUInt8]
  else held

def edited (keys : List Int32) : List UInt8 := keys.foldl editKey []

end Seaweed
