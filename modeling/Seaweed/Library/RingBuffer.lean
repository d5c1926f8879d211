import Mathlib

/-! A ring of `n` cells written at one end and read at the other. `history` is all that
was ever written, and the first `released` of it may be overwritten: the rest stands in
the cells, each at its place modulo `n`. -/

namespace Library

variable {α : Type*} {n : ℕ}

/-- Two places less than a whole turn apart are in the same cell only when equal. -/
theorem place_eq {a b : ℕ} (ahead : b ≤ a) (near : a < b + n) : a % n = b % n ↔ a = b := by
  constructor
  · intro same
    obtain ⟨k, rfl⟩ := Nat.exists_eq_add_of_le ahead
    have turn : (b + k) % n = (b + 0) % n := by rw [same, Nat.add_zero]
    have zero : k % n = 0 % n := Nat.ModEq.add_left_cancel' b turn
    rw [Nat.zero_mod, Nat.mod_eq_of_lt (by omega)] at zero
    omega
  · rintro rfl
    rfl

variable [NeZero n] {cells : Fin n → α} {history : List α} {released : ℕ}

structure Ring (cells : Fin n → α) (history : List α) (released : ℕ) : Prop where
  ahead : released ≤ history.length
  room : history.length < released + n
  kept : ∀ j value, released ≤ j → history[j]? = some value → cells (Fin.ofNat n j) = value

namespace Ring

theorem empty (cells : Fin n → α) : Ring cells [] 0 where
  ahead := Nat.le_refl 0
  room := by
    rw [List.length_nil, Nat.zero_add]
    exact Nat.pos_of_ne_zero (NeZero.ne n)
  kept := fun _ _ _ found => by cases found

theorem empty_iff (ring : Ring cells history released) : history.length % n = released % n ↔ history.length = released :=
  place_eq ring.ahead ring.room

/-- One cell stays unused, so that full and empty differ. -/
theorem full_iff (ring : Ring cells history released) :
    (history.length + 1) % n = released % n ↔ history.length + 1 = released + n := by
  have ahead := ring.ahead
  have room := ring.room
  by_cases last : history.length + 1 = released + n
  · rw [last, Nat.add_mod_right]
    exact iff_of_true rfl rfl
  · refine iff_of_false (fun same => ?_) last
    have equal := (place_eq (by omega) (by omega)).mp same
    omega

theorem push (ring : Ring cells history released) (space : history.length + 1 < released + n) (value : α) :
    Ring (Function.update cells (Fin.ofNat n history.length) value) (history ++ [value]) released where
  ahead := by
    have := ring.ahead
    rw [List.length_append]
    omega
  room := by
    rw [List.length_append]
    exact space
  kept := by
    intro j other later found
    by_cases last : j = history.length
    · subst last
      rw [List.getElem?_concat_length] at found
      rw [Function.update_self]
      exact Option.some.inj found
    · have inside : j < history.length := by
        have bound := (List.getElem?_eq_some_iff.mp found).1
        rw [List.length_append, List.length_singleton] at bound
        omega
      have apart : Fin.ofNat n j ≠ Fin.ofNat n history.length := by
        intro same
        have equal := (place_eq (Nat.le_of_lt inside) (by omega)).mp (congrArg Fin.val same).symm
        omega
      rw [Function.update_of_ne apart]
      rw [List.getElem?_append_left inside] at found
      exact ring.kept j other later found

theorem pop (ring : Ring cells history released) (waiting : released < history.length) : Ring cells history (released + 1) where
  ahead := waiting
  room := by
    have := ring.room
    omega
  kept := fun j value later found => ring.kept j value (by omega) found

end Ring
end Library
