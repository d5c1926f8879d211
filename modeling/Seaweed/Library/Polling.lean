import Mathlib

/-! Polling with a bound: readings are taken from the front of a stream until one of them
is answered, and the others are passed over. -/

namespace Library

variable {α β σ ρ : Type*} {answer : α → Option β} {s : Stream' α} {a b : β} {j k n : ℕ}

/-- Reading `k` is the first that is answered. -/
structure Answered (answer : α → Option β) (s : Stream' α) (k : ℕ) (value : β) : Prop where
  passed : ∀ j, j < k → answer (s.get j) = none
  found : answer (s.get k) = some value

namespace Answered

theorem first (found : answer s.head = some a) : Answered answer s 0 a where
  passed := fun j low => absurd low (Nat.not_lt_zero j)
  found := found

theorem later (passed : answer s.head = none) (rest : Answered answer s.tail k a) : Answered answer s (k + 1) a where
  passed := by
    intro j low
    cases j with
    | zero => exact passed
    | succ j => exact rest.passed j (Nat.lt_of_succ_lt_succ low)
  found := rest.found

private theorem not_before (here : Answered answer s k a) (there : Answered answer s j b) : ¬ k < j := by
  intro before
  have none := there.passed k before
  rw [here.found] at none
  cases none

theorem unique (here : Answered answer s k a) (there : Answered answer s j b) : k = j ∧ a = b := by
  obtain rfl : k = j := Nat.le_antisymm (Nat.not_lt.mp (there.not_before here)) (Nat.not_lt.mp (here.not_before there))
  exact ⟨rfl, Option.some.inj (here.found.symm.trans there.found)⟩

end Answered

section Loop

variable (read : σ → Stream' α) (advance : σ → σ) (stop : β → σ → ρ) (giveUp : σ → ρ) (loop : ℕ → σ → ρ)

/-- A loop that ends at an answered reading and goes on at any other stops at the first
answered reading, or gives up after all of them. -/
theorem polling_cases (tail : ∀ x, read (advance x) = (read x).tail)
    (zero : ∀ x, loop 0 x = giveUp x)
    (ends : ∀ n x value, answer (read x).head = some value → loop (n + 1) x = stop value (advance x))
    (goes : ∀ n x, answer (read x).head = none → loop (n + 1) x = loop n (advance x)) (n : ℕ) (x : σ) :
    (∃ k value, k < n ∧ Answered answer (read x) k value ∧ loop n x = stop value (advance^[k + 1] x)) ∨
    (∀ j, j < n → answer ((read x).get j) = none) ∧ loop n x = giveUp (advance^[n] x) := by
  induction n generalizing x with
  | zero => exact .inr ⟨fun j low => absurd low (Nat.not_lt_zero j), zero x⟩
  | succ n ih =>
    cases head : answer (read x).head with
    | some value => exact .inl ⟨0, value, Nat.succ_pos n, .first head, ends n x value head⟩
    | none =>
      rw [goes n x head]
      rcases ih (advance x) with ⟨k, value, low, found, result⟩ | ⟨passed, result⟩
      · rw [tail] at found
        exact .inl ⟨k + 1, value, Nat.succ_lt_succ low, found.later head, result⟩
      · refine .inr ⟨fun j low => ?_, result⟩
        cases j with
        | zero => exact head
        | succ j =>
          have next := passed j (Nat.lt_of_succ_lt_succ low)
          rw [tail] at next
          exact next

end Loop

end Library
