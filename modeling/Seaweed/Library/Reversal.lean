import Mathlib

/-! Reversing the first `length` cells in place. After `i` turns of swapping the ends, the
outer `i` cells on both sides stand mirrored and the rest as they were. -/

namespace Library

variable {α : Type*} {n length i : ℕ}

/-- The cell opposite to `j`, for the cells below `length`. -/
def mirror (fits : length ≤ n) (j : Fin n) : Fin n := ⟨length - 1 - j, by omega⟩

def turned (fits : length ≤ n) (cells : Fin n → α) (i : ℕ) : Fin n → α := fun j =>
  if j < i ∨ (length - i ≤ j ∧ j < length) then cells (mirror fits j) else cells j

theorem turned_zero (fits : length ≤ n) (cells : Fin n → α) : turned fits cells 0 = cells := by
  funext j
  exact if_neg (by omega)

theorem turned_inner (fits : length ≤ n) (cells : Fin n → α) {j : Fin n} (low : i ≤ j) (high : j < length - i) :
    turned fits cells i j = cells j :=
  if_neg (by omega)

/-- The two cells that the next turn exchanges still hold what they held. -/
theorem turned_succ (fits : length ≤ n) (cells : Fin n → α) {low high : Fin n} (first : (low : ℕ) = i)
    (last : (high : ℕ) = length - 1 - i) (inner : i < length / 2) :
    Function.update (Function.update (turned fits cells i) low (turned fits cells i high)) high (turned fits cells i low) =
      turned fits cells (i + 1) := by
  rw [turned_inner fits cells (j := low) (by omega) (by omega), turned_inner fits cells (j := high) (by omega) (by omega)]
  have up : mirror fits low = high := Fin.ext (by simp only [mirror]; omega)
  have down : mirror fits high = low := Fin.ext (by simp only [mirror]; omega)
  funext j
  by_cases top : j = high
  · subst top
    rw [Function.update_self, turned, if_pos (by omega), down]
  rw [Function.update_of_ne top]
  by_cases bottom : j = low
  · subst bottom
    rw [Function.update_self, turned, if_pos (by omega), up]
  rw [Function.update_of_ne bottom, turned, turned]
  have apart : (j : ℕ) ≠ i ∧ (j : ℕ) ≠ length - 1 - i :=
    ⟨fun same => bottom (Fin.ext (same.trans first.symm)), fun same => top (Fin.ext (same.trans last.symm))⟩
  congr 1
  apply propext
  omega

/-- Half the turns reverse everything: a cell in the middle is its own opposite. -/
theorem turned_half (fits : length ≤ n) (cells : Fin n → α) :
    turned fits cells (length / 2) = fun j : Fin n => if j < length then cells (mirror fits j) else cells j := by
  funext j
  rw [turned]
  by_cases inside : (j : ℕ) < length
  · rw [if_pos inside]
    by_cases middle : (j : ℕ) < length / 2 ∨ (length - length / 2 ≤ j ∧ j < length)
    · rw [if_pos middle]
    · rw [if_neg middle]
      congr 1
      exact Fin.ext (by simp only [mirror]; omega)
  · rw [if_neg inside, if_neg (by omega)]

end Library
