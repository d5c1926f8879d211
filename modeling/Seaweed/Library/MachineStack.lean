import Seaweed.Library.Words

/-! A stack in a memory of 32-bit addresses that wrap around. Words are little-endian, and a
push moves the pointer down before it stores. -/

namespace Library

abbrev Cells := UInt32 → UInt8

def loadWord (m : Cells) (a : UInt32) : UInt32 := UInt32.ofNat (wordAt (fun i => m (a + UInt32.ofNat i)) 0)

def putWord (m : Cells) (a w : UInt32) : Cells :=
  fun x => if (x - a).toNat < 4 then byteOf w.toNat (x - a).toNat else m x

/-- The words from `p` upwards. -/
def Stacked (m : Cells) : UInt32 → List UInt32 → Prop
  | _, [] => True
  | p, w :: ws => loadWord m p = w ∧ Stacked m (p + 4) ws

variable {m n : Cells} {a b p w : UInt32} {ws : List UInt32}

theorem down_down (p a b : UInt32) : p - a - b = p - (a + b) := by
  simp only [UInt32.sub_eq_add_neg, UInt32.neg_add, UInt32.add_assoc]

theorem distance_add {i : ℕ} (inside : (p - a).toNat + i < 2 ^ 32) : (p + UInt32.ofNat i - a).toNat = (p - a).toNat + i := by
  have moved : p + UInt32.ofNat i - a = (p - a) + UInt32.ofNat i := by
    rw [UInt32.sub_eq_add_neg, UInt32.sub_eq_add_neg, UInt32.add_assoc, UInt32.add_comm (UInt32.ofNat i), ← UInt32.add_assoc]
  rw [moved, UInt32.toNat_add, UInt32.toNat_ofNat_of_lt' (by rw [UInt32.size]; omega)]
  exact Nat.mod_eq_of_lt inside

theorem distance_self (i : ℕ) (small : i < 2 ^ 32) : (p + UInt32.ofNat i - p).toNat = i := by
  have zero : (p - p).toNat = 0 := by rw [UInt32.sub_self]; rfl
  rw [distance_add (by rwa [zero, Nat.zero_add]), zero, Nat.zero_add]

theorem loadWord_congr (same : ∀ i, i < 4 → m (a + UInt32.ofNat i) = n (a + UInt32.ofNat i)) : loadWord m a = loadWord n a := by
  apply congrArg UInt32.ofNat
  apply wordAt_congr
  intro i inside
  rw [Nat.zero_add]
  exact same i inside

theorem loadWord_putWord (m : Cells) (a w : UInt32) : loadWord (putWord m a w) a = w := by
  have bytes : wordAt (fun i => putWord m a w (a + UInt32.ofNat i)) 0 = w.toNat % 2 ^ 32 := by
    apply wordAt_bytes
    intro k inside
    have place := @distance_self a k (by omega)
    simp only [putWord, Nat.zero_add, place, if_pos inside]
  rw [loadWord, bytes, Nat.mod_eq_of_lt w.toNat_lt]
  exact UInt32.ofNat_toNat

theorem loadWord_putWord_other (far : 4 ≤ (b - a).toNat) (near : (b - a).toNat + 4 ≤ 2 ^ 32) :
    loadWord (putWord m a w) b = loadWord m b := by
  apply loadWord_congr
  intro i inside
  have place := @distance_add a b i (by omega)
  rw [putWord, place, if_neg (by omega)]

/-- A store below the words leaves them. -/
theorem Stacked.put (stacked : Stacked m p ws) (far : 4 ≤ (p - a).toNat) (near : (p - a).toNat + 4 * ws.length ≤ 2 ^ 32) :
    Stacked (putWord m a w) p ws := by
  induction ws generalizing p with
  | nil => trivial
  | cons first rest ih =>
    obtain ⟨here, later⟩ := stacked
    rw [List.length_cons] at near
    refine ⟨?_, ?_⟩
    · rw [loadWord_putWord_other far (by omega), here]
    · cases rest with
      | nil => trivial
      | cons second rest =>
        rw [List.length_cons] at near
        have next : (p + 4 - a).toNat = (p - a).toNat + 4 := @distance_add a p 4 (by omega)
        exact ih later (by omega) (by rw [List.length_cons]; omega)

theorem Stacked.push (stacked : Stacked m p ws) (room : 4 * (ws.length + 1) ≤ 2 ^ 32) (w : UInt32) :
    Stacked (putWord m (p - 4) w) (p - 4) (w :: ws) := by
  have back : p - 4 + 4 = p := UInt32.sub_add_cancel p 4
  have four : (p - (p - 4)).toNat = 4 := by
    have distance := @distance_self (p - 4) 4 (by decide)
    have four : UInt32.ofNat 4 = 4 := rfl
    rwa [four, back] at distance
  refine ⟨loadWord_putWord m (p - 4) w, ?_⟩
  rw [back]
  exact stacked.put (Nat.le_of_eq four.symm) (by omega)

/-- Only the bytes of the words themselves count. -/
theorem Stacked.congr (stacked : Stacked m p ws)
    (same : ∀ i, i < 4 * ws.length → n (p + UInt32.ofNat i) = m (p + UInt32.ofNat i)) : Stacked n p ws := by
  induction ws generalizing p with
  | nil => trivial
  | cons first rest ih =>
    obtain ⟨here, later⟩ := stacked
    rw [List.length_cons] at same
    refine ⟨?_, ih later fun i inside => ?_⟩
    · rw [← here]
      exact loadWord_congr fun i inside => same i (by omega)
    · have next : p + 4 + UInt32.ofNat i = p + UInt32.ofNat (4 + i) := by
        rw [UInt32.ofNat_add, ← UInt32.add_assoc]
        rfl
      rw [next]
      exact same (4 + i) (by omega)

end Library
