import Mathlib

/-! `drivers/keyboard.c`: scancodes to keys, and the ring buffer between the interrupt
and its reader. An access outside `buffer` answers `none`. -/

namespace Seaweed

abbrev bufferSize : ℕ := 128

instance : NeZero bufferSize := ⟨by decide⟩

/-- The static variables of `keyboard.c`. -/
structure Keyboard where
  buffer : Fin bufferSize → Int32
  head : UInt32
  tail : UInt32
  shiftHeld : Bool
  capsOn : Bool
  extended : Bool

/-- What `keyboard_init` leaves. The bytes it reads away go nowhere. -/
def keyboardInit (k : Keyboard) : Keyboard :=
  { k with head := 0, tail := 0, shiftHeld := false, capsOn := false, extended := false }

def place (i : UInt32) : Option (Fin bufferSize) := if inside : i.toNat < bufferSize then some ⟨i.toNat, inside⟩ else none

/-- `(i + 1) & (BUFFER_SIZE - 1)`. -/
def following (i : UInt32) : UInt32 := (i + 1) &&& (UInt32.ofNat bufferSize - 1)

/-- A full buffer drops the key. -/
def bufferPush (k : Keyboard) (c : Int32) : Option Keyboard :=
  if following k.head = k.tail then some k
  else do
    let i ← place k.head
    some { k with buffer := Function.update k.buffer i c, head := following k.head }

def keyboardGetchar (k : Keyboard) : Option (Int32 × Keyboard) :=
  if k.head = k.tail then some (0, k)
  else do
    let i ← place k.tail
    some (k.buffer i, { k with tail := following k.tail })

section Scancodes

def keysOf (text : String) : List UInt8 := text.toList.map fun c => UInt8.ofNat c.toNat

/-- Scancodes from 58 on have no character. -/
def keymap : List UInt8 :=
  [0, 27] ++ keysOf "1234567890-=\x08\tqwertyuiop[]\n" ++ [0] ++ keysOf "asdfghjkl;'" ++ [96, 0] ++
    keysOf "\\zxcvbnm,./" ++ [0] ++ keysOf "*" ++ [0] ++ keysOf " " ++ [0]

def keymapShift : List UInt8 :=
  [0, 27] ++ keysOf "!@#$%^&*()_+\x08\tQWERTYUIOP\x7b\x7d\n" ++ [0] ++ keysOf "ASDFGHJKL:\"~" ++ [0] ++
    keysOf "|ZXCVBNM<>?" ++ [0] ++ keysOf "*" ++ [0] ++ keysOf " " ++ [0]

/-- The keys after a `0xE0` byte. -/
def extendedKey (scancode : UInt8) : Option Int32 :=
  if scancode = 0x48 then some 0x100
  else if scancode = 0x50 then some 0x101
  else if scancode = 0x4B then some 0x102
  else if scancode = 0x4D then some 0x103
  else if scancode = 0x47 then some 0x104
  else if scancode = 0x4F then some 0x105
  else if scancode = 0x53 then some 0x106
  else if scancode = 0x49 then some 0x107
  else if scancode = 0x51 then some 0x108
  else none

/-- Caps lock flips the case that shift decided. -/
def flipCase (c : UInt8) : UInt8 :=
  if 97 ≤ c ∧ c ≤ 122 then c - 97 + 65
  else if 65 ≤ c ∧ c ≤ 90 then c - 65 + 97
  else c

/-- The work of one interrupt, on the byte it reads from the controller. -/
def keyboardCallback (k : Keyboard) (scancode : UInt8) : Option Keyboard :=
  if scancode = 0xE0 then some { k with extended := true }
  else if k.extended then
    let k := { k with extended := false }
    if scancode &&& 0x80 ≠ 0 then some k
    else
      match extendedKey scancode with
      | some key => bufferPush k key
      | none => some k
  else if scancode &&& 0x80 ≠ 0 then
    if scancode &&& 0x7F = 0x2A ∨ scancode &&& 0x7F = 0x36 then some { k with shiftHeld := false } else some k
  else if scancode = 0x2A ∨ scancode = 0x36 then some { k with shiftHeld := true }
  else if scancode = 0x3A then some { k with capsOn := !k.capsOn }
  else if 128 ≤ scancode then some k
  else
    let c := (if k.shiftHeld then keymapShift else keymap).getD scancode.toNat 0
    if c = 0 then some k
    else bufferPush k (Int32.ofNat (if k.capsOn then flipCase c else c).toNat)

end Scancodes

/-- Where a call of `keyboard_getchar` stands: before it compares `head` with `tail`,
before it reads the cell, or with the key in `c` before it moves `tail`. -/
inductive Reader where
  | comparing | reading
  | advancing (c : Int32)
deriving DecidableEq

/-- The keyboard and the call in progress. The lists note every key that was accepted and
everything `keyboard_getchar` returned, and `released` counts how often `tail` moved. -/
structure KeyMachine where
  keyboard : Keyboard
  reader : Reader
  accepted : List Int32
  returned : List Int32
  released : ℕ

inductive KeyAct where
  | push (c : Int32)
  | getchar

/-- The interrupt's push in one step, or the next memory step of `keyboard_getchar`. -/
def KeyAct.step (m : KeyMachine) : KeyAct → Option KeyMachine
  | .push c => do
    let k ← bufferPush m.keyboard c
    let full := following m.keyboard.head = m.keyboard.tail
    some { m with keyboard := k, accepted := if full then m.accepted else m.accepted ++ [c] }
  | .getchar =>
    match m.reader with
    | .comparing =>
      if m.keyboard.head = m.keyboard.tail then some { m with returned := m.returned ++ [0] }
      else some { m with reader := .reading }
    | .reading => do
      let i ← place m.keyboard.tail
      some { m with reader := .advancing (m.keyboard.buffer i) }
    | .advancing c =>
      some { m with
        keyboard := { m.keyboard with tail := following m.keyboard.tail }
        reader := .comparing
        returned := m.returned ++ [c]
        released := m.released + 1 }

def KeyMachine.start (k : Keyboard) : KeyMachine where
  keyboard := { k with head := 0, tail := 0 }
  reader := .comparing
  accepted := []
  returned := []
  released := 0

def runKeys (m : KeyMachine) (acts : List KeyAct) : Option KeyMachine := acts.foldlM KeyAct.step m

/-- What happens at the keys: a key without a `0xE0` byte goes down or comes up, or the main
loop takes a key out of the buffer. -/
inductive KeyEvent where
  | press (code : UInt8)
  | release (code : UInt8)
  | read
deriving DecidableEq

/-- The decoder beside the keys themselves. `caps` changes at every press of caps lock, and
`orphaned` notes that one shift stayed down when the other was let go, with neither
pressed since. -/
structure TypedKeys where
  keyboard : Keyboard
  down : UInt8 → Bool
  caps : Bool
  orphaned : Bool

def isShift (code : UInt8) : Bool := code = 0x2A || code = 0x36

def TypedKeys.shiftDown (s : TypedKeys) : Bool := s.down 0x2A || s.down 0x36

/-- A release sends the code of its key with bit 7 set. -/
def KeyEvent.step (s : TypedKeys) : KeyEvent → Option TypedKeys
  | .press code => do
    let k ← keyboardCallback s.keyboard code
    some {
      keyboard := k
      down := Function.update s.down code true
      caps := if code = 0x3A then !s.caps else s.caps
      orphaned := !isShift code && s.orphaned }
  | .release code => do
    let k ← keyboardCallback s.keyboard (code ||| 0x80)
    let down := Function.update s.down code false
    some { s with
      keyboard := k
      down := down
      orphaned := if isShift code then down 0x2A || down 0x36 else s.orphaned }
  | .read => do
    let (_, k) ← keyboardGetchar s.keyboard
    some { s with keyboard := k }

def TypedKeys.start (k : Keyboard) : TypedKeys where
  keyboard := keyboardInit k
  down := fun _ => false
  caps := false
  orphaned := false

def runEvents (s : TypedKeys) (events : List KeyEvent) : Option TypedKeys := events.foldlM KeyEvent.step s

end Seaweed
