import Seaweed.CString
import Seaweed.Library.Loops

/-! `utoa` and `itoa` of `lib/string.c` on a buffer of `n` bytes. An access outside the
buffer or the table of digits answers `none`, and so does signed arithmetic that overflows. -/

namespace Seaweed
open Library

variable {n : ℕ}

def Buffer.store (buffer : Buffer n) (i : ℕ) (c : UInt8) : Option (Buffer n) :=
  if inside : i < n then some (Function.update buffer ⟨i, inside⟩ c) else none

def Buffer.load (buffer : Buffer n) (i : ℕ) : Option UInt8 :=
  if inside : i < n then some (buffer ⟨i, inside⟩) else none

def digits : CString := literal "0123456789abcdef"

/-- `while (value > 0)`: the digits of the value, lowest first, and how many there are.
A division by two or more leaves nothing of 32 bits after 32 turns. -/
def utoaDigits (base : UInt32) : ℕ → UInt32 → ℕ → Buffer n → Option (ℕ × Buffer n)
  | 0, _, _, _ => none
  | turns + 1, value, length, buffer =>
    if value = 0 then some (length, buffer)
    else do
      let digit ← digits.bytes[(value % base).toNat]?
      let buffer ← buffer.store length digit
      utoaDigits base turns (value / base) (length + 1) buffer

/-- One turn of the loop that swaps the ends and walks inwards. -/
def swapEnds (length i : ℕ) (buffer : Buffer n) : Option (Buffer n) := do
  let tmp ← buffer.load i
  let other ← buffer.load (length - 1 - i)
  let buffer ← buffer.store i other
  buffer.store (length - 1 - i) tmp

def utoa (value : UInt32) (buffer : Buffer n) (base : Int32) : Option (Buffer n) :=
  if base < 2 ∨ 16 < base then buffer.store 0 0
  else if value = 0 then do
    let buffer ← buffer.store 0 48
    buffer.store 1 0
  else do
    let (length, buffer) ← utoaDigits base.toUInt32 33 value 0 buffer
    let buffer ← buffer.store length 0
    forCount (swapEnds length) 0 (length / 2) buffer

/-- `-(long)value`, where `long` has the 32 bits of an `int`. -/
def negateLong (value : Int32) : Option Int32 := if value = Int32.minValue then none else some (-value)

/-- Every branch stores a byte, so the buffer has one. -/
def itoa (value : Int32) (buffer : Buffer (n + 1)) (base : Int32) : Option (Buffer (n + 1)) :=
  if base = 10 ∧ value < 0 then do
    let magnitude ← negateLong value
    let rest ← utoa magnitude.toUInt32 (fun i => buffer i.succ) base
    some (Fin.cons 45 rest)
  else utoa value.toUInt32 buffer base

end Seaweed
