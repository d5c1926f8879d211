import Seaweed.Strings
import Seaweed.Library.Copying

/-! `memmove` as a list of single moves. Each direction puts them in an order that reads no
byte after it was overwritten, however the two ranges overlap. -/

namespace Seaweed
open Library

variable {p q : UInt32} {i j n : ℕ}

theorem offset_toNat (inside : p.toNat + i < 2 ^ 32) : (p + UInt32.ofNat i).toNat = p.toNat + i := by
  rw [UInt32.toNat_add, UInt32.toNat_ofNat_of_lt' (by rw [UInt32.size]; omega)]
  exact Nat.mod_eq_of_lt inside

theorem offset_ne (first : p.toNat + i < 2 ^ 32) (second : q.toNat + j < 2 ^ 32) (differ : p.toNat + i ≠ q.toNat + j) :
    p + UInt32.ofNat i ≠ q + UInt32.ofNat j := by
  intro same
  apply differ
  rw [← offset_toNat first, ← offset_toNat second, same]

/-- The pair of cells for the byte at `i`. -/
def moveAt (dest src : UInt32) (i : ℕ) : UInt32 × UInt32 := (dest + UInt32.ofNat i, src + UInt32.ofNat i)

theorem copyForwards_eq (n : ℕ) (dest src : UInt32) (memory : Memory) :
    copyForwards n dest src memory = copyAll memory ((List.range n).map (moveAt dest src)) := by
  induction n generalizing dest src memory with
  | zero => rfl
  | succ n ih =>
    have next : ∀ (p : UInt32) (i : ℕ), p + UInt32.ofNat (i + 1) = p + 1 + UInt32.ofNat i := by
      intro p i
      rw [UInt32.ofNat_add, UInt32.add_assoc, UInt32.add_comm 1]
      rfl
    have later : moveAt dest src ∘ Nat.succ = moveAt (dest + 1) (src + 1) := by
      funext i
      exact Prod.ext (next dest i) (next src i)
    have first : moveAt dest src 0 = (dest, src) := Prod.ext (UInt32.add_zero dest) (UInt32.add_zero src)
    rw [copyForwards, ih, List.range_succ_eq_map, List.map_cons, List.map_map, later, first]
    rfl

theorem copyBackwards_eq (n : ℕ) (dest src : UInt32) (memory : Memory) :
    copyBackwards n (dest + UInt32.ofNat n) (src + UInt32.ofNat n) memory =
      copyAll memory ((List.range n).reverse.map (moveAt dest src)) := by
  induction n generalizing memory with
  | zero => rfl
  | succ n ih =>
    have back : ∀ p : UInt32, p + UInt32.ofNat (n + 1) - 1 = p + UInt32.ofNat n := by
      intro p
      rw [UInt32.ofNat_add, ← UInt32.add_assoc]
      exact UInt32.add_sub_cancel _ _
    rw [copyBackwards, back, back, ih, List.range_succ, List.reverse_append]
    rfl

theorem forwards_unspoiled {dest src : UInt32} (destRange : dest.toNat + n ≤ 2 ^ 32) (srcRange : src.toNat + n ≤ 2 ^ 32)
    (below : dest < src) : Unspoiled ((List.range n).map (moveAt dest src)) := by
  have less : dest.toNat < src.toNat := below
  apply List.pairwise_map.mpr
  refine List.Pairwise.imp_of_mem ?_ List.pairwise_lt_range
  intro i j first second earlier
  have inside := List.mem_range.mp second
  exact ⟨offset_ne (by omega) (by omega) (by omega), offset_ne (by omega) (by omega) (by omega)⟩

theorem backwards_unspoiled {dest src : UInt32} (destRange : dest.toNat + n ≤ 2 ^ 32) (srcRange : src.toNat + n ≤ 2 ^ 32)
    (above : ¬ dest < src) : Unspoiled ((List.range n).reverse.map (moveAt dest src)) := by
  have less : ¬ dest.toNat < src.toNat := above
  apply List.pairwise_map.mpr
  apply List.pairwise_reverse.mpr
  refine List.Pairwise.imp_of_mem ?_ List.pairwise_lt_range
  intro i j first second earlier
  have inside := List.mem_range.mp second
  exact ⟨offset_ne (by omega) (by omega) (by omega), offset_ne (by omega) (by omega) (by omega)⟩

/-- Every byte arrives as it was before the call, and nothing outside the destination
changes. -/
theorem memmove_copies {dest src count : UInt32} (memory : Memory) (destRange : dest.toNat + count.toNat ≤ 2 ^ 32)
    (srcRange : src.toNat + count.toNat ≤ 2 ^ 32) :
    (memmove dest src count memory).1 = dest ∧
      (∀ i, i < count.toNat →
        (memmove dest src count memory).2 (dest + UInt32.ofNat i) = memory (src + UInt32.ofNat i)) ∧
      ∀ x, (∀ i, i < count.toNat → dest + UInt32.ofNat i ≠ x) → (memmove dest src count memory).2 x = memory x := by
  obtain ⟨moves, unspoiled, indices, moved⟩ : ∃ moves : List ℕ, Unspoiled (moves.map (moveAt dest src)) ∧
      (∀ i, i ∈ moves ↔ i < count.toNat) ∧
      memmove dest src count memory = (dest, copyAll memory (moves.map (moveAt dest src))) := by
    by_cases below : dest < src
    · refine ⟨List.range count.toNat, forwards_unspoiled destRange srcRange below, fun _ => List.mem_range, ?_⟩
      rw [memmove, if_pos below, copyForwards_eq]
    · refine ⟨(List.range count.toNat).reverse, backwards_unspoiled destRange srcRange below, fun i => ?_, ?_⟩
      · exact List.mem_reverse.trans List.mem_range
      · have whole : UInt32.ofNat count.toNat = count := UInt32.ofNat_toNat
        have copied := copyBackwards_eq count.toNat dest src memory
        rw [whole] at copied
        rw [memmove, if_neg below, copied]
  rw [moved]
  refine ⟨rfl, fun i inside => ?_, fun x outside => ?_⟩
  · apply copyAll_moved unspoiled (moveAt dest src i)
    exact List.mem_map_of_mem ((indices i).mpr inside)
  · apply copyAll_outside
    intro move member
    obtain ⟨i, inside, rfl⟩ := List.mem_map.mp member
    exact outside i ((indices i).mp inside)

/-- Two bytes up inside a range of six. -/
theorem memmove_copies_of_overlap :
    (memmove 102 100 4 UInt32.toUInt8).1 = 102 ∧
      (∀ i, i < (4 : UInt32).toNat →
        (memmove 102 100 4 UInt32.toUInt8).2 (102 + UInt32.ofNat i) = UInt32.toUInt8 (100 + UInt32.ofNat i)) ∧
      ∀ x, (∀ i, i < (4 : UInt32).toNat → 102 + UInt32.ofNat i ≠ x) →
        (memmove 102 100 4 UInt32.toUInt8).2 x = UInt32.toUInt8 x :=
  memmove_copies UInt32.toUInt8 (by decide) (by decide)

end Seaweed
