import Mathlib

/-! A cursor over numbered slots that may fill and empty between its steps. A scan looks
at one set of present slots after another and takes the first one at or after the
cursor, which then stands behind it. -/

namespace Library

variable {n : ℕ}

/-- The first slot at or after the cursor that is present. -/
def firstFrom (present : Fin n → Bool) (cursor : ℕ) : Option (Fin n) :=
  (List.finRange n).find? fun i => decide (cursor ≤ i.val) && present i

variable {present last : Fin n → Bool} {cursor : ℕ} {i : Fin n}

theorem firstFrom_some (found : firstFrom present cursor = some i) : cursor ≤ i.val ∧ present i = true := by
  simpa using List.find?_some found

theorem firstFrom_none : firstFrom present cursor = none ↔ ∀ i : Fin n, cursor ≤ i.val → present i = false := by
  simp [firstFrom]

/-- The slots before the one that is found are passed over because they are absent. -/
theorem firstFrom_first (found : firstFrom present cursor = some i) (j : Fin n) (low : cursor ≤ j.val)
    (before : j.val < i.val) : present j = false := by
  obtain ⟨_, k, inside, here, absent⟩ := List.find?_eq_some_iff_getElem.mp found
  rw [List.getElem_finRange] at here
  have place : k = i.val := congrArg Fin.val here
  have passed := absent j.val (by omega)
  simpa [List.getElem_finRange, low] using passed

/-- The present slots at or after the cursor, in order. -/
def presentFrom (present : Fin n → Bool) (cursor : ℕ) : List (Fin n) :=
  (List.finRange n).filter fun i => decide (cursor ≤ i.val) && present i

theorem mem_presentFrom : i ∈ presentFrom present cursor ↔ cursor ≤ i.val ∧ present i = true := by
  simp [presentFrom]

theorem presentFrom_nodup : (presentFrom present cursor).Nodup := (List.nodup_finRange n).filter _

theorem presentFrom_none (nothing : firstFrom present cursor = none) : presentFrom present cursor = [] := by
  apply List.eq_nil_iff_forall_not_mem.mpr
  intro i member
  obtain ⟨low, here⟩ := mem_presentFrom.mp member
  rw [firstFrom_none.mp nothing i low] at here
  cases here

/-- What is present is the slot that is found and what is present behind it. -/
theorem presentFrom_some (found : firstFrom present cursor = some i) :
    presentFrom present cursor = i :: presentFrom present (i.val + 1) := by
  have sorted : ∀ cursor, (presentFrom present cursor).Pairwise (· < ·) :=
    fun _ => (List.pairwise_lt_finRange n).filter _
  have behind : ∀ j ∈ presentFrom present (i.val + 1), i < j := fun j member => (mem_presentFrom.mp member).1
  refine @List.Perm.eq_of_pairwise _ (· < ·) _ _ (fun a b _ _ less more => absurd less (lt_asymm more)) (sorted cursor) ?_ ?_
  · exact List.pairwise_cons.mpr ⟨behind, sorted _⟩
  apply (List.perm_ext_iff_of_nodup presentFrom_nodup _).mpr
  · intro j
    obtain ⟨low, here⟩ := firstFrom_some found
    rw [List.mem_cons, mem_presentFrom, mem_presentFrom]
    constructor
    · rintro ⟨after, there⟩
      rcases lt_trichotomy j.val i.val with before | same | later
      · rw [firstFrom_first found j after before] at there
        cases there
      · exact .inl (Fin.ext same)
      · exact .inr ⟨later, there⟩
    · rintro (rfl | ⟨later, there⟩)
      · exact ⟨low, here⟩
      · exact ⟨by omega, there⟩
  · exact List.nodup_cons.mpr ⟨fun member => lt_irrefl i (behind i member), presentFrom_nodup⟩

/-- A whole scan: the sets that were looked at, each with the slot taken there, and the
set in which nothing was left. -/
inductive Scan : ℕ → List ((Fin n → Bool) × Fin n) → (Fin n → Bool) → Prop where
  | done {cursor : ℕ} {last : Fin n → Bool} (nothing : firstFrom last cursor = none) : Scan cursor [] last
  | found {cursor : ℕ} {present last : Fin n → Bool} {i : Fin n} {visits : List ((Fin n → Bool) × Fin n)}
      (first : firstFrom present cursor = some i) (rest : Scan (i.val + 1) visits last) :
      Scan cursor ((present, i) :: visits) last

namespace Scan

variable {visits : List ((Fin n → Bool) × Fin n)}

theorem from_cursor (scan : Scan cursor visits last) : ∀ visit ∈ visits, cursor ≤ visit.2.val := by
  induction scan with
  | done nothing => exact fun visit member => absurd member List.not_mem_nil
  | found first rest ih =>
    have start := (firstFrom_some first).1
    refine List.forall_mem_cons.mpr ⟨start, fun visit member => ?_⟩
    exact Nat.le_trans start (Nat.le_of_succ_le (ih visit member))

/-- The cursor only moves on, so no slot is taken twice. -/
theorem nodup (scan : Scan cursor visits last) : (visits.map Prod.snd).Nodup := by
  induction scan with
  | done nothing => exact List.nodup_nil
  | @found cursor present last i visits first rest ih =>
    refine List.nodup_cons.mpr ⟨?_, ih⟩
    intro again
    obtain ⟨visit, member, same⟩ := List.mem_map.mp again
    have behind := rest.from_cursor visit member
    rw [same] at behind
    exact absurd behind (Nat.not_succ_le_self _)

/-- A slot from the start on that is present whenever the scan looks is taken: while the
cursor is not behind it, it is not passed over. -/
theorem complete (scan : Scan cursor visits last) (ahead : cursor ≤ i.val)
    (always : ∀ visit ∈ visits, visit.1 i = true) (atEnd : last i = true) : i ∈ visits.map Prod.snd := by
  induction scan with
  | done nothing =>
    exact absurd atEnd (Bool.eq_false_iff.mp (firstFrom_none.mp nothing i ahead))
  | @found cursor present last j visits first rest ih =>
    obtain ⟨here, later⟩ := List.forall_mem_cons.mp always
    rcases Nat.lt_trichotomy i.val j.val with before | same | behind
    · exact absurd here (Bool.eq_false_iff.mp (firstFrom_first first i ahead before))
    · exact List.mem_map.mpr ⟨(present, j), List.mem_cons_self, (Fin.ext same).symm⟩
    · exact List.mem_cons_of_mem _ (ih behind later atEnd)

end Scan

end Library
