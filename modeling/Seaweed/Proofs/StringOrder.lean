import Seaweed.Strings
import Seaweed.Library.Lexicographic

/-! The comparisons of `lib/string.c` as one order on strings. Each of them returns the
difference at the first place where its operands differ. -/

namespace Seaweed
open Library

variable {as bs : List UInt8}

/-- The string of the first bytes, at most `n` of them. -/
def CString.cut (s : CString) (n : ℕ) : CString where
  chars := s.chars.take n
  terminated := fun member => s.terminated (List.mem_of_mem_take member)

def CString.gap (a b : CString) : Int := Library.gap UInt8.toNat a.chars b.chars

section Differences

theorem toNat_pos {c : UInt8} (nonzero : c ≠ 0) : 0 < c.toNat := by
  apply Nat.pos_of_ne_zero
  exact fun same => nonzero (UInt8.toNat_inj.mp same)

theorem CString.weighs (s : CString) : ∀ c ∈ s.chars, 0 < c.toNat := by
  intro c member
  apply toNat_pos
  rintro rfl
  exact s.terminated member

theorem toNat_injective : Function.Injective UInt8.toNat := fun _ _ => UInt8.toNat_inj.mp

theorem strcmp_gap (first : 0 ∉ as) (second : 0 ∉ bs) (restA restB : List UInt8) :
    strcmp (as ++ 0 :: restA) (bs ++ 0 :: restB) = some (gap UInt8.toNat as bs) := by
  induction as generalizing bs with
  | nil =>
    cases bs with
    | nil => simp [strcmp, gap]
    | cons b bs => simp [strcmp, gap]
  | cons a as ih =>
    obtain ⟨nonzero, firstRest⟩ := not_or.mp (mt List.mem_cons.mpr first)
    cases bs with
    | nil => simp [strcmp, gap, Ne.symm nonzero]
    | cons b bs =>
      obtain ⟨_, secondRest⟩ := not_or.mp (mt List.mem_cons.mpr second)
      by_cases same : a = b
      · subst same
        rw [gap_cons_self, ← ih firstRest secondRest]
        exact if_pos ⟨Ne.symm nonzero, rfl⟩
      · rw [gap, if_neg same]
        exact if_neg fun both => same both.2

theorem strncmp_gap (first : 0 ∉ as) (second : 0 ∉ bs) (n : ℕ) (restA restB : List UInt8) :
    strncmp n (as ++ 0 :: restA) (bs ++ 0 :: restB) = some (gap UInt8.toNat (as.take n) (bs.take n)) := by
  induction n generalizing as bs with
  | zero => rfl
  | succ n ih =>
    cases as with
    | nil => cases bs <;> simp [strncmp, gap]
    | cons a as =>
      obtain ⟨nonzero, firstRest⟩ := not_or.mp (mt List.mem_cons.mpr first)
      cases bs with
      | nil => simp [strncmp, gap, Ne.symm nonzero]
      | cons b bs =>
        obtain ⟨_, secondRest⟩ := not_or.mp (mt List.mem_cons.mpr second)
        simp only [List.take_succ_cons]
        by_cases same : a = b
        · subst same
          rw [gap_cons_self, ← ih firstRest secondRest]
          exact if_pos ⟨Ne.symm nonzero, rfl⟩
        · rw [gap, if_neg same]
          exact if_neg fun both => same both.2

/-- The bytes from `n` on make no difference, even whether there are any. -/
theorem strncmp_take (n : ℕ) (as bs : List UInt8) : strncmp n (as.take n) (bs.take n) = strncmp n as bs := by
  induction n generalizing as bs with
  | zero => rfl
  | succ n ih =>
    cases as with
    | nil => cases bs <;> rfl
    | cons a as =>
      cases bs with
      | nil => rfl
      | cons b bs =>
        simp only [List.take_succ_cons, strncmp]
        rw [ih]

theorem memcmp_gap (first : 0 ∉ as) (second : 0 ∉ bs) (restA restB : List UInt8) :
    memcmp (min as.length bs.length + 1) (as ++ 0 :: restA) (bs ++ 0 :: restB) = some (gap UInt8.toNat as bs) := by
  induction as generalizing bs with
  | nil =>
    cases bs with
    | nil => simp [memcmp, gap]
    | cons b bs =>
      obtain ⟨nonzero, _⟩ := not_or.mp (mt List.mem_cons.mpr second)
      simp [memcmp, gap, nonzero]
  | cons a as ih =>
    obtain ⟨nonzero, firstRest⟩ := not_or.mp (mt List.mem_cons.mpr first)
    cases bs with
    | nil => simp [memcmp, gap, Ne.symm nonzero]
    | cons b bs =>
      obtain ⟨_, secondRest⟩ := not_or.mp (mt List.mem_cons.mpr second)
      have shorter : min (a :: as).length (b :: bs).length = min as.length bs.length + 1 := by
        simp only [List.length_cons]
        omega
      rw [shorter]
      by_cases same : a = b
      · subst same
        rw [gap_cons_self, ← ih firstRest secondRest]
        exact if_neg fun differ => differ rfl
      · rw [gap, if_neg same]
        exact if_pos same

end Differences

/-- A comparison whose sign is the lexicographic order of the strings as unsigned bytes. -/
structure BytewiseOrder (order : CString → CString → Int) : Prop where
  less : ∀ a b, order a b < 0 ↔ a.chars < b.chars
  equal : ∀ a b, order a b = 0 ↔ a = b
  antisymmetric : ∀ a b, order b a = -order a b
  transitive : ∀ a b c, order a b ≤ 0 → order b c ≤ 0 → order a c ≤ 0

theorem gap_bytewise : BytewiseOrder CString.gap where
  less := fun _ b => gap_neg_iff toNat_injective b.weighs
  equal := fun a b => (gap_eq_zero_iff toNat_injective a.weighs b.weighs).trans CString.ext_iff.symm
  antisymmetric := fun a b => gap_swap UInt8.toNat a.chars b.chars
  transitive := fun a _ _ => gap_trans toNat_injective a.weighs

/-- `strcmp` is such an order, `strncmp` is `strcmp` of the strings cut short and reads
nothing behind the cut, and `memcmp` up to the end of the shorter string is `strcmp`. -/
theorem comparisons_agree :
    ∃ order, BytewiseOrder order ∧ ∀ (a b : CString) (restA restB : List UInt8),
      strcmp (a.bytes ++ restA) (b.bytes ++ restB) = some (order a b) ∧
      (∀ n, strncmp n (a.bytes ++ restA) (b.bytes ++ restB) = some (order (a.cut n) (b.cut n)) ∧
        strncmp n ((a.bytes ++ restA).take n) ((b.bytes ++ restB).take n) = some (order (a.cut n) (b.cut n))) ∧
      memcmp (min a.chars.length b.chars.length + 1) (a.bytes ++ restA) (b.bytes ++ restB) = some (order a b) := by
  refine ⟨CString.gap, gap_bytewise, fun a b restA restB => ?_⟩
  have whole : ∀ (s : CString) (rest : List UInt8), s.bytes ++ rest = s.chars ++ 0 :: rest :=
    fun s rest => List.append_assoc s.chars [0] rest
  rw [whole a restA, whole b restB]
  refine ⟨strcmp_gap a.terminated b.terminated restA restB, fun n => ?_, memcmp_gap a.terminated b.terminated restA restB⟩
  have stopped := strncmp_gap a.terminated b.terminated n restA restB
  exact ⟨stopped, (strncmp_take n _ _).trans stopped⟩

end Seaweed
