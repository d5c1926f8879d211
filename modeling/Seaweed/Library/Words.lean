import Mathlib

/-! Little-endian 32-bit words in a memory of bytes, as a number read from four
neighbouring cells and as four cells written from a number. -/

namespace Library

abbrev Bytes := ℕ → UInt8

/-- The byte of a number at place `k`, lowest first. -/
def byteOf (value k : ℕ) : UInt8 := UInt8.ofNat (value / 256 ^ k)

def wordAt (m : Bytes) (a : ℕ) : ℕ :=
  (m a).toNat + 256 * (m (a + 1)).toNat + 65536 * (m (a + 2)).toNat + 16777216 * (m (a + 3)).toNat

def storeWord (m : Bytes) (a value : ℕ) : Bytes :=
  fun x => if a ≤ x ∧ x < a + 4 then byteOf value (x - a) else m x

variable {m n : Bytes} {a b value x : ℕ}

theorem byteOf_toNat (value k : ℕ) : (byteOf value k).toNat = value / 256 ^ k % 256 :=
  UInt8.toNat_ofNat'

theorem wordAt_lt (m : Bytes) (a : ℕ) : wordAt m a < 2 ^ 32 := by
  have b0 := (m a).toNat_lt
  have b1 := (m (a + 1)).toNat_lt
  have b2 := (m (a + 2)).toNat_lt
  have b3 := (m (a + 3)).toNat_lt
  unfold wordAt
  omega

theorem wordAt_congr (same : ∀ k, k < 4 → m (a + k) = n (b + k)) : wordAt m a = wordAt n b := by
  have b0 := same 0 (by decide)
  have b1 := same 1 (by decide)
  have b2 := same 2 (by decide)
  have b3 := same 3 (by decide)
  simp only [Nat.add_zero] at b0
  simp only [wordAt, b0, b1, b2, b3]

theorem wordAt_bytes (same : ∀ k, k < 4 → m (a + k) = byteOf value k) : wordAt m a = value % 2 ^ 32 := by
  have b0 := same 0 (by decide)
  have b1 := same 1 (by decide)
  have b2 := same 2 (by decide)
  have b3 := same 3 (by decide)
  simp only [Nat.add_zero] at b0
  simp only [wordAt, b0, b1, b2, b3, byteOf_toNat]
  omega

/-- The bytes of a word that was read are the cells it was read from. -/
theorem byteOf_wordAt (m : Bytes) (a k : ℕ) (inside : k < 4) : byteOf (wordAt m a) k = m (a + k) := by
  have b0 := (m a).toNat_lt
  have b1 := (m (a + 1)).toNat_lt
  have b2 := (m (a + 2)).toNat_lt
  have b3 := (m (a + 3)).toNat_lt
  apply UInt8.toNat_inj.mp
  rw [byteOf_toNat, wordAt]
  interval_cases k
  · simp only [Nat.add_zero]
    omega
  all_goals omega

theorem storeWord_outside (apart : x < a ∨ a + 4 ≤ x) : storeWord m a value x = m x :=
  if_neg (by omega)

theorem wordAt_storeWord (m : Bytes) (a value : ℕ) : wordAt (storeWord m a value) a = value % 2 ^ 32 := by
  apply wordAt_bytes
  intro k inside
  rw [storeWord, if_pos (by omega), Nat.add_sub_cancel_left]

theorem wordAt_storeWord_small (small : value < 2 ^ 32) : wordAt (storeWord m a value) a = value := by
  rw [wordAt_storeWord, Nat.mod_eq_of_lt small]

theorem wordAt_storeWord_other (apart : b + 4 ≤ a ∨ a + 4 ≤ b) :
    wordAt (storeWord m a value) b = wordAt m b :=
  wordAt_congr fun k inside => storeWord_outside (by omega)

end Library
