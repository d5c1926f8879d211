import Mathlib

/-! Copying cell by cell inside one memory. Each pair is the cell written and the cell read,
and any order is right in which no cell is read after it was written. -/

namespace Library

variable {A α : Type*} [DecidableEq A] {moves : List (A × A)} {m : A → α} {x : A}

def copyAll (m : A → α) : List (A × A) → A → α
  | [] => m
  | move :: rest => copyAll (Function.update m move.1 (m move.2)) rest

theorem copyAll_outside (outside : ∀ move ∈ moves, move.1 ≠ x) : copyAll m moves x = m x := by
  induction moves generalizing m with
  | nil => rfl
  | cons move rest ih =>
    rw [copyAll, ih fun other member => outside other (List.mem_cons_of_mem move member)]
    exact Function.update_of_ne (Ne.symm (outside move List.mem_cons_self)) _ _

/-- A later move neither writes the cell of an earlier one nor reads it. -/
def Unspoiled (moves : List (A × A)) : Prop :=
  moves.Pairwise fun earlier later => later.1 ≠ earlier.1 ∧ later.2 ≠ earlier.1

theorem copyAll_moved (unspoiled : Unspoiled moves) : ∀ move ∈ moves, copyAll m moves move.1 = m move.2 := by
  induction moves generalizing m with
  | nil =>
    intro move member
    cases member
  | cons first rest ih =>
    obtain ⟨apart, later⟩ := List.pairwise_cons.mp unspoiled
    intro move member
    rw [copyAll]
    rcases List.mem_cons.mp member with rfl | inside
    · rw [copyAll_outside fun other member => (apart other member).1]
      exact Function.update_self _ _ _
    · rw [ih later move inside]
      exact Function.update_of_ne (apart move inside).2 _ _

end Library
