import Seaweed.Library.Polling
import Seaweed.Timer

/-! How long `timer_sleep` waits. The comparison of a difference is right across the
wrap of the counter; the number of ticks to wait for is computed in 32 bits as well, and
there the wrap does harm. -/

namespace Seaweed
open Library

variable {start target ms : UInt32} {passed : ℕ → ℕ} {k n wanted : ℕ}

/-- The timer goes on, and the counter is read again after each of its interrupts. Other
interrupts may wake the loop in between. -/
structure Passing (passed : ℕ → ℕ) : Prop where
  start : passed 0 = 0
  step : ∀ k, passed k ≤ passed (k + 1) ∧ passed (k + 1) ≤ passed k + 1
  unbounded : ∀ n, ∃ k, n ≤ passed k

/-- The first reading of the loop at which `n` interrupts have occurred since the call. -/
structure FirstAt (passed : ℕ → ℕ) (n k : ℕ) : Prop where
  inside : 1 ≤ k
  enough : n ≤ passed k
  before : ∀ j, 1 ≤ j → j < k → passed j < n

theorem Passing.first_exists (passing : Passing passed) (n : ℕ) : ∃ k, FirstAt passed n k := by
  have found : ∃ k, 1 ≤ k ∧ n ≤ passed k := by
    obtain ⟨k, enough⟩ := passing.unbounded n
    exact ⟨k + 1, Nat.succ_pos k, enough.trans (passing.step k).1⟩
  classical
  obtain ⟨inside, enough⟩ := Nat.find_spec found
  refine ⟨Nat.find found, inside, enough, fun j positive early => ?_⟩
  exact Nat.lt_of_not_le fun late => Nat.find_min found early ⟨positive, late⟩

/-- No interrupt is missed, so the first such reading comes right in time. -/
theorem Passing.close (passing : Passing passed) (inside : 1 ≤ k) (before : ∀ j, 1 ≤ j → j < k → passed j < n) :
    passed k ≤ max n 1 := by
  obtain ⟨j, rfl⟩ := Nat.exists_eq_add_of_le' inside
  have step := (passing.step j).2
  rcases Nat.eq_zero_or_pos j with rfl | positive
  · rw [passing.start] at step
    omega
  · have early := before j positive (Nat.lt_succ_self j)
    omega

theorem readingsOf_get (start : UInt32) (passed : ℕ → ℕ) (k : ℕ) :
    (readingsOf start passed).get k = start + UInt32.ofNat (passed k) := by
  have counted : ∀ n, timerCallback^[n] start = start + UInt32.ofNat n := by
    intro n
    induction n with
    | zero => simp
    | succ n ih =>
      rw [Function.iterate_succ_apply', ih, timerCallback]
      simp [UInt32.ofNat_add, UInt32.add_assoc]
  exact counted (passed k)

theorem toInt32_toInt (x : UInt32) : x.toInt32.toInt = if x.toNat < 2 ^ 31 then (x.toNat : ℤ) else x.toNat - 2 ^ 32 := by
  have bits : x.toInt32.toInt = x.toBitVec.toInt := rfl
  rw [bits, BitVec.toInt_eq_toNat_cond]
  simp
  split <;> split <;> omega

/-- The signed view of the difference tells whether the target is ahead, on either side
of the wrap, as long as it is near. -/
theorem stillWaiting_iff (start : UInt32) {wanted : UInt32} (near : wanted.toNat < 2 ^ 31) (close : n ≤ max wanted.toNat 1) :
    stillWaiting (start + wanted) (start + UInt32.ofNat n) = true ↔ n < wanted.toNat := by
  have small : n < 2 ^ 32 := by omega
  have value : (UInt32.ofNat n).toNat = n := UInt32.toNat_ofNat_of_lt' small
  rw [stillWaiting, decide_eq_true_iff, add_sub_add_left_eq_sub, toInt32_toInt, UInt32.toNat_sub, value]
  split <;> omega

/-- What a reading tells the loop: to go on, or that it is over. -/
def leaves (target reading : UInt32) : Option Unit := if stillWaiting target reading then none else some ()

theorem leaves_none {reading : UInt32} : leaves target reading = none ↔ stillWaiting target reading = true := by
  simp [leaves]

private theorem moved (first j : ℕ) : (fun k : ℕ => k + 1)^[j] first = first + j := by
  induction j with
  | zero => rfl
  | succ j ih => rw [Function.iterate_succ_apply', ih, Nat.add_assoc]

theorem sleepFrom_cases (target : UInt32) (readings : Stream' UInt32) (first turns : ℕ) :
    (∃ j, j < turns ∧ Answered (leaves target) (readings.drop first) j () ∧
      sleepFrom target readings turns first = some (first + j)) ∨
    (∀ j, j < turns → leaves target ((readings.drop first).get j) = none) ∧ sleepFrom target readings turns first = none := by
  have ends : ∀ n k (value : Unit), leaves target (readings.drop k).head = some value →
      sleepFrom target readings (n + 1) k = some (k + 1 - 1) := by
    intro n k value found
    rw [Stream'.head_drop] at found
    rw [sleepFrom, if_neg, Nat.add_sub_cancel]
    intro still
    exact Option.ne_none_iff_exists'.mpr ⟨value, found⟩ (leaves_none.mpr still)
  have goes : ∀ n k, leaves target (readings.drop k).head = none →
      sleepFrom target readings (n + 1) k = sleepFrom target readings n (k + 1) := by
    intro n k none
    rw [Stream'.head_drop] at none
    rw [sleepFrom, if_pos (leaves_none.mp none)]
  rcases @polling_cases UInt32 Unit ℕ (Option ℕ) (leaves target) (fun k => readings.drop k) (· + 1) (fun _ k => some (k - 1))
    (fun _ => none) (sleepFrom target readings) (fun _ => Stream'.tail_drop'.symm) (fun _ => rfl) ends goes turns first with
    ⟨j, _, low, answered, result⟩ | none
  · rw [moved] at result
    exact .inl ⟨j, low, answered, result⟩
  · exact .inr none

/-- The loop is left at the first reading that lets it. -/
theorem sleepFrom_iff (target : UInt32) (readings : Stream' UInt32) (first k : ℕ) :
    (∃ turns, sleepFrom target readings turns first = some k) ↔
      ∃ j, k = first + j ∧ Answered (leaves target) (readings.drop first) j () := by
  constructor
  · intro ⟨turns, left⟩
    rcases sleepFrom_cases target readings first turns with ⟨j, _, answered, result⟩ | ⟨_, result⟩
    · exact ⟨j, Option.some.inj (left.symm.trans result), answered⟩
    · cases left.symm.trans result
  · intro ⟨j, here, answered⟩
    refine ⟨j + 1, ?_⟩
    rcases sleepFrom_cases target readings first (j + 1) with ⟨i, _, answered', result⟩ | ⟨passed, _⟩
    · obtain ⟨rfl, _⟩ := answered.unique answered'
      rw [result, here]
    · cases answered.found.symm.trans (passed j (Nat.lt_succ_self j))

/-- While the loop waits for a near target the difference counts the interrupts left. -/
theorem Passing.leaves_iff (passing : Passing passed) (start : UInt32) {wanted : UInt32} (near : wanted.toNat < 2 ^ 31) (k : ℕ) :
    Answered (leaves (start + wanted)) ((readingsOf start passed).drop 1) k () ↔ FirstAt passed wanted.toNat (1 + k) := by
  have reading : ∀ j, ((readingsOf start passed).drop 1).get j = start + UInt32.ofNat (passed (1 + j)) := by
    intro j
    rw [Stream'.get_drop]
    exact readingsOf_get start passed (1 + j)
  have still : ∀ j, (∀ i, 1 ≤ i → i < 1 + j → passed i < wanted.toNat) →
      (leaves (start + wanted) (((readingsOf start passed).drop 1).get j) = none ↔ passed (1 + j) < wanted.toNat) := by
    intro j before
    rw [leaves_none, reading j]
    exact stillWaiting_iff start near (passing.close (Nat.le_add_right 1 j) before)
  constructor
  · intro answered
    have before : ∀ j, j < 1 + k → 1 ≤ j → passed j < wanted.toNat := by
      intro j
      induction j using Nat.strongRecOn with
      | ind j ih =>
        intro early positive
        obtain ⟨i, rfl⟩ := Nat.exists_eq_add_of_le positive
        refine (still i fun l positive earlier => ih l earlier (by omega) positive).mp (answered.passed i (by omega))
    have early : ∀ j, 1 ≤ j → j < 1 + k → passed j < wanted.toNat := fun j positive early => before j early positive
    refine ⟨Nat.le_add_right 1 k, Nat.le_of_not_lt fun more => ?_, early⟩
    have none := (still k early).mpr more
    rw [answered.found] at none
    cases none
  · intro first
    refine ⟨fun j early => ?_, ?_⟩
    · exact (still j fun i positive earlier => first.before i positive (by omega)).mpr (first.before (1 + j) (by omega) (by omega))
    · have ended := (still k first.before).not.mpr (Nat.not_lt.mpr first.enough)
      obtain ⟨_, found⟩ := Option.ne_none_iff_exists'.mp ended
      exact found

theorem sleepWanted_toNat (ms : UInt32) : (sleepWanted ms).toNat = (ms.toNat * 100 + 999) % 2 ^ 32 / 1000 := by
  rw [← Nat.mod_add_mod]
  simp [sleepWanted, timerHz, UInt32.toNat_div, UInt32.toNat_add, UInt32.toNat_mul]

theorem Passing.timerSleep_iff (passing : Passing passed) (start ms : UInt32) (k : ℕ) :
    (∃ turns, timerSleep ms (readingsOf start passed) turns = some k) ↔ FirstAt passed (sleepWanted ms).toNat k := by
  have near : (sleepWanted ms).toNat < 2 ^ 31 := by
    rw [sleepWanted_toNat]
    omega
  have set : (readingsOf start passed).get 0 = start := by
    rw [readingsOf_get, passing.start]
    simp
  simp only [timerSleep, set, sleepFrom_iff, passing.leaves_iff start near]
  constructor
  · intro ⟨j, here, first⟩
    rwa [here]
  · intro first
    obtain ⟨j, rfl⟩ := Nat.exists_eq_add_of_le first.inside
    exact ⟨j, rfl, first⟩

/-- `timer_sleep` is left at the first reading at which the wanted number of interrupts
has occurred, whatever the counter is at the call, exactly for the durations whose
product with the frequency does not wrap. -/
theorem timer_sleep_long_enough_iff (start ms : UInt32) (passing : Passing passed) :
    (∀ k, (∃ turns, timerSleep ms (readingsOf start passed) turns = some k) ↔
      FirstAt passed ((ms.toNat * timerHz.toNat) ⌈/⌉ 1000) k) ↔ ms.toNat ≤ 42949662 := by
  have wanted := sleepWanted_toNat ms
  have due : (ms.toNat * timerHz.toNat) ⌈/⌉ 1000 = (ms.toNat * 100 + 999) / 1000 := by
    rw [Nat.ceilDiv_eq_add_pred_div]
    rfl
  rw [due]
  simp only [passing.timerSleep_iff, wanted]
  constructor
  · intro same
    by_contra long
    obtain ⟨k, first⟩ := passing.first_exists ((ms.toNat * 100 + 999) % 2 ^ 32 / 1000)
    have close := passing.close first.inside first.before
    have enough := ((same k).mp first).enough
    have lost : (ms.toNat * 100 + 999) % 2 ^ 32 ≤ ms.toNat * 100 + 999 - 2 ^ 32 := by
      rw [Nat.mod_eq_sub_mod (by omega)]
      exact Nat.mod_le _ _
    generalize (ms.toNat * 100 + 999) % 2 ^ 32 = left at close lost
    omega
  · intro short k
    have fits : ms.toNat * 100 + 999 < 2 ^ 32 := by omega
    rw [Nat.mod_eq_of_lt fits]

theorem timer_sleep_long_enough_of_wrap :
    (∀ k, (∃ turns, timerSleep 1 (readingsOf 4294967295 id) turns = some k) ↔
      FirstAt id (((1 : UInt32).toNat * timerHz.toNat) ⌈/⌉ 1000) k) ↔ (1 : UInt32).toNat ≤ 42949662 :=
  timer_sleep_long_enough_iff 4294967295 1 ⟨rfl, fun k => ⟨Nat.le_succ k, Nat.le_refl _⟩, fun n => ⟨n, Nat.le_refl n⟩⟩

/-- After 42949663 ms, 4294967 ticks are due; the loop is left at the first reading. -/
theorem timer_sleep_wraps : ¬ ∀ (start ms : UInt32) (passed : ℕ → ℕ), Passing passed →
    ∀ k, (∃ turns, timerSleep ms (readingsOf start passed) turns = some k) ↔
      FirstAt passed ((ms.toNat * timerHz.toNat) ⌈/⌉ 1000) k := by
  intro all
  have passing : Passing id := ⟨rfl, fun k => ⟨Nat.le_succ k, Nat.le_refl _⟩, fun n => ⟨n, Nat.le_refl n⟩⟩
  have first := (all 0 42949663 id passing 1).mp ⟨1, rfl⟩
  have late := first.enough
  rw [Nat.ceilDiv_eq_add_pred_div] at late
  exact absurd late (by decide)

end Seaweed
