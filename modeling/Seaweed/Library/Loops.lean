import Mathlib

/-! Counting loops that may fail, and the rule that follows their counter. -/

namespace Library

variable {σ : Type*}

/-- `for (i = start; i < start + count; i++) body(i)`. -/
def forCount (body : ℕ → σ → Option σ) : ℕ → ℕ → σ → Option σ
  | _, 0, s => some s
  | start, count + 1, s => (body start s).bind (forCount body (start + 1) count)

/-- A loop whose state before each turn is known goes from the first to the last. -/
theorem forCount_eq (body : ℕ → σ → Option σ) (state : ℕ → σ) (start count : ℕ)
    (turn : ∀ i, start ≤ i → i < start + count → body i (state i) = some (state (i + 1))) :
    forCount body start count (state start) = some (state (start + count)) := by
  induction count generalizing start with
  | zero => rfl
  | succ count ih =>
    rw [forCount, turn start (Nat.le_refl start) (by omega), Option.bind_some,
      ih (start + 1) fun i low high => turn i (by omega) (by omega)]
    congr 2
    omega

end Library
