import Mathlib

/-! The first difference of two strings as one number, and the order that its sign gives.
The end of a string weighs nothing, so a string comes after each of its own beginnings. -/

namespace Library

variable {α : Type*} [DecidableEq α] {weight : α → ℕ} {as bs cs : List α}

def gap (weight : α → ℕ) : List α → List α → Int
  | [], [] => 0
  | [], b :: _ => -(weight b : Int)
  | a :: _, [] => weight a
  | a :: as, b :: bs => if a = b then gap weight as bs else (weight a : Int) - weight b

theorem gap_cons_self (weight : α → ℕ) (a : α) (as bs : List α) : gap weight (a :: as) (a :: bs) = gap weight as bs :=
  if_pos rfl

theorem gap_swap (weight : α → ℕ) (as bs : List α) : gap weight bs as = -gap weight as bs := by
  induction as generalizing bs with
  | nil => cases bs <;> simp [gap]
  | cons a as ih =>
    cases bs with
    | nil => rfl
    | cons b bs =>
      by_cases same : a = b
      · subst same
        rw [gap_cons_self, gap_cons_self, ih]
      · rw [gap, gap, if_neg same, if_neg (Ne.symm same)]
        omega

/-- With weights that tell the letters apart the sign is the lexicographic order. -/
theorem gap_neg_iff (injective : Function.Injective weight) (positive : ∀ b ∈ bs, 0 < weight b) :
    gap weight as bs < 0 ↔ List.Lex (fun a b => weight a < weight b) as bs := by
  induction as generalizing bs with
  | nil =>
    cases bs with
    | nil => simp [gap]
    | cons b bs =>
      have heavy := positive b List.mem_cons_self
      refine iff_of_true ?_ .nil
      simp only [gap]
      omega
  | cons a as ih =>
    cases bs with
    | nil =>
      refine iff_of_false ?_ List.not_lex_nil
      simp only [gap]
      omega
    | cons b bs =>
      by_cases same : a = b
      · subst same
        rw [gap_cons_self, ih fun c member => positive c (List.mem_cons_of_mem a member)]
        rw [List.lex_cons_iff]
      · have apart : weight a ≠ weight b := injective.ne same
        rw [gap, if_neg same, List.cons_lex_cons_iff]
        simp only [same, false_and, or_false]
        omega

theorem gap_eq_zero_iff (injective : Function.Injective weight) (first : ∀ a ∈ as, 0 < weight a)
    (second : ∀ b ∈ bs, 0 < weight b) : gap weight as bs = 0 ↔ as = bs := by
  induction as generalizing bs with
  | nil =>
    cases bs with
    | nil => simp [gap]
    | cons b bs =>
      have heavy := second b List.mem_cons_self
      simp only [gap, reduceCtorEq, iff_false]
      omega
  | cons a as ih =>
    have heavy := first a List.mem_cons_self
    cases bs with
    | nil =>
      simp only [gap, reduceCtorEq, iff_false]
      omega
    | cons b bs =>
      by_cases same : a = b
      · subst same
        rw [gap_cons_self, ih (fun c member => first c (List.mem_cons_of_mem a member))
          fun c member => second c (List.mem_cons_of_mem a member)]
        simp
      · have apart : weight a ≠ weight b := injective.ne same
        rw [gap, if_neg same]
        simp only [List.cons.injEq, same, false_and, iff_false]
        omega

theorem gap_trans (injective : Function.Injective weight) (positive : ∀ a ∈ as, 0 < weight a)
    (low : gap weight as bs ≤ 0) (high : gap weight bs cs ≤ 0) : gap weight as cs ≤ 0 := by
  induction as generalizing bs cs with
  | nil => cases cs <;> simp [gap]
  | cons a as ih =>
    have heavy := positive a List.mem_cons_self
    cases bs with
    | nil =>
      simp only [gap] at low
      omega
    | cons b bs =>
      by_cases left : a = b
      · subst left
        rw [gap_cons_self] at low
        cases cs with
        | nil => exact high
        | cons c cs =>
          by_cases right : a = c
          · subst right
            rw [gap_cons_self] at high ⊢
            exact ih (fun c member => positive c (List.mem_cons_of_mem a member)) low high
          · rw [gap, if_neg right] at high ⊢
            exact high
      · have apart : weight a ≠ weight b := injective.ne left
        rw [gap, if_neg left] at low
        cases cs with
        | nil =>
          simp only [gap] at high ⊢
          omega
        | cons c cs =>
          have less : weight b ≤ weight c := by
            by_cases right : b = c
            · exact right ▸ Nat.le_refl _
            · rw [gap, if_neg right] at high
              omega
          have differ : a ≠ c := by
            rintro rfl
            omega
          rw [gap, if_neg differ]
          omega

end Library
