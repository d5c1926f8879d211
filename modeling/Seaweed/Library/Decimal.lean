import Mathlib.Data.Nat.Digits.Defs
import Mathlib.Tactic.Ring
import Mathlib.Tactic.Positivity

/-! Numerals read from the front: the value that a loop accumulates digit by digit. -/

namespace Library

variable {base value : ℕ} {digits : List ℕ}

/-- Each digit in turn, the value so far one place up. -/
def accumulate (base : ℕ) : ℕ → List ℕ → ℕ
  | value, [] => value
  | value, digit :: rest => accumulate base (value * base + digit) rest

theorem accumulate_eq (base value : ℕ) (digits : List ℕ) :
    accumulate base value digits = value * base ^ digits.length + Nat.ofDigits base digits.reverse := by
  induction digits generalizing value with
  | nil => simp [accumulate]
  | cons digit rest ih =>
    rw [accumulate, ih, Nat.ofDigits_reverse_cons, List.length_cons]
    ring

/-- From nothing, the loop ends with the value of the numeral. -/
theorem accumulate_zero (base : ℕ) (digits : List ℕ) : accumulate base 0 digits = Nat.ofDigits base digits.reverse := by
  rw [accumulate_eq, Nat.zero_mul, Nat.zero_add]

/-- The value never shrinks, so a bound on the last value bounds all of them. -/
theorem le_accumulate (positive : 0 < base) (value : ℕ) (digits : List ℕ) : value ≤ accumulate base value digits := by
  rw [accumulate_eq]
  exact (Nat.le_mul_of_pos_right value (by positivity)).trans (Nat.le_add_right ..)

end Library
