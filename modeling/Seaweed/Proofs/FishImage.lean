import Seaweed.FishDisk

/-! The byte image of the nodes and of the superblock: reading back what was laid out
gives the same nodes, and laying out what was read gives the same bytes. -/

namespace Seaweed
open Library

section Words

variable {m : Bytes} {a : ℕ}

/-- An `int` field survives the way through its four bytes. -/
theorem int_word {x : Int32} (same : ∀ k, k < 4 → m (a + k) = byteOf x.toUInt32.toNat k) :
    (UInt32.ofNat (wordAt m a)).toInt32 = x := by
  rw [wordAt_bytes same, Nat.mod_eq_of_lt x.toUInt32.toNat_lt, UInt32.ofNat_toNat]
  rfl

theorem size_word {x : UInt32} (same : ∀ k, k < 4 → m (a + k) = byteOf x.toNat k) :
    UInt32.ofNat (wordAt m a) = x := by
  rw [wordAt_bytes same, Nat.mod_eq_of_lt x.toNat_lt, UInt32.ofNat_toNat]

theorem word_byte (m : Bytes) (a k : ℕ) (inside : k < 4) :
    byteOf (UInt32.ofNat (wordAt m a)).toNat k = m (a + k) := by
  rw [UInt32.toNat_ofNat_of_lt' (wordAt_lt m a), byteOf_wordAt m a k inside]

end Words

theorem Buffer.at_inside {n : ℕ} (buffer : Buffer n) (i : Fin n) : buffer.at i = buffer i := dif_pos i.isLt

section Nodes

variable {m m' : Bytes} {a : ℕ} {n : Node}

/-- A node is read from its 560 bytes only. -/
theorem nodeAt_of_bytes (same : ∀ k, k < 560 → m (a + k) = n.byte k) : nodeAt m a = n := by
  have shifted : ∀ start k, start + k < 560 → m (a + start + k) = n.byte (start + k) := by
    intro start k inside
    rw [Nat.add_assoc, same (start + k) inside]
  apply Node.ext
  · funext i
    have inside : i.val < 32 := i.isLt
    change m (a + i) = n.name i
    rw [same i (by omega), Node.byte, if_pos inside, Buffer.at_inside]
  · apply int_word
    intro k inside
    rw [shifted 32 k (by omega), Node.byte, if_neg (by omega), if_pos (by omega), Nat.add_sub_cancel_left]
  · apply int_word
    intro k inside
    rw [shifted 36 k (by omega), Node.byte, if_neg (by omega), if_neg (by omega), if_pos (by omega),
      Nat.add_sub_cancel_left]
  · apply int_word
    intro k inside
    rw [shifted 40 k (by omega), Node.byte, if_neg (by omega), if_neg (by omega), if_neg (by omega),
      if_pos (by omega), Nat.add_sub_cancel_left]
  · apply size_word
    intro k inside
    rw [shifted 44 k (by omega), Node.byte, if_neg (by omega), if_neg (by omega), if_neg (by omega),
      if_neg (by omega), if_pos (by omega), Nat.add_sub_cancel_left]
  · funext i
    have inside : i.val < 512 := i.isLt
    change m (a + 48 + i) = n.data i
    rw [shifted 48 i (by omega), Node.byte, if_neg (by omega), if_neg (by omega), if_neg (by omega),
      if_neg (by omega), if_neg (by omega), Nat.add_sub_cancel_left, Buffer.at_inside]

/-- A node that was read is laid out as the bytes it was read from. -/
theorem nodeAt_byte (m : Bytes) (a : ℕ) {k : ℕ} (inside : k < 560) : (nodeAt m a).byte k = m (a + k) := by
  have word : ∀ start, start ≤ k → k < start + 4 →
      byteOf (UInt32.ofNat (wordAt m (a + start))).toNat (k - start) = m (a + k) := by
    intro start low high
    rw [word_byte m (a + start) (k - start) (by omega), Nat.add_assoc, Nat.add_sub_cancel' low]
  unfold Node.byte
  split_ifs with name used isDir parent size
  · exact Buffer.at_inside (nodeAt m a).name ⟨k, name⟩
  · exact word 32 (by omega) (by omega)
  · exact word 36 (by omega) (by omega)
  · exact word 40 (by omega) (by omega)
  · exact word 44 (by omega) (by omega)
  · have rest : k - 48 < fishFileMax := by
      change k - 48 < 512
      omega
    refine (Buffer.at_inside (nodeAt m a).data ⟨k - 48, rest⟩).trans ?_
    change m (a + 48 + (k - 48)) = m (a + k)
    rw [Nat.add_assoc, Nat.add_sub_cancel' (by omega)]

theorem image_inside (nodes : Fin fishMaxNodes → Node) (i : Fin fishMaxNodes) {k : ℕ} (inside : k < 560) :
    image nodes (560 * i + k) = (nodes i).byte k := by
  have quotient : (560 * i.val + k) / 560 = i := by omega
  have remainder : (560 * i.val + k) % 560 = k := by omega
  simp only [image, quotient, remainder, i.isLt, dite_true]

theorem nodesAt_image (nodes : Fin fishMaxNodes → Node) : nodesAt (image nodes) = nodes :=
  funext fun i => nodeAt_of_bytes fun _ inside => image_inside nodes i inside

theorem image_nodesAt (m : Bytes) {k : ℕ} (inside : k < nodeBytes) : image (nodesAt m) k = m k := by
  have place : k / 560 < 64 := by
    change k < 35840 at inside
    omega
  have split : k = 560 * (k / 560) + k % 560 := (Nat.div_add_mod k 560).symm
  rw [split]
  exact (image_inside (nodesAt m) ⟨k / 560, place⟩ (Nat.mod_lt k (by decide))).trans
    (nodeAt_byte m _ (Nat.mod_lt k (by decide)))

theorem nodesAt_congr (same : ∀ k, k < nodeBytes → m k = m' k) : nodesAt m = nodesAt m' := by
  funext i
  have last := i.isLt
  apply nodeAt_of_bytes
  intro k inside
  change i.val < 64 at last
  rw [nodesAt, nodeAt_byte m' _ inside]
  refine same _ ?_
  change 560 * i.val + k < 35840
  omega

theorem nodesAt_eq_iff {nodes : Fin fishMaxNodes → Node} :
    nodesAt m = nodes ↔ ∀ k, k < nodeBytes → m k = image nodes k := by
  constructor
  · rintro rfl k inside
    exact (image_nodesAt m inside).symm
  · intro same
    rw [nodesAt_congr same, nodesAt_image]

/-- The nodes whose first `n` sectors of bytes are those of `front`, and whose other
bytes are those of `nodes`. -/
def joined (front : Bytes) (nodes : Fin fishMaxNodes → Node) (n : ℕ) : Fin fishMaxNodes → Node :=
  nodesAt fun k => if k < 512 * n then front k else image nodes k

variable {front : Bytes} {nodes target : Fin fishMaxNodes → Node} {n : ℕ}

theorem joined_zero : joined front nodes 0 = nodes := by
  have none : ∀ k, ¬ k < 512 * 0 := fun k => by omega
  simp only [joined, none, if_false]
  exact nodesAt_image nodes

theorem joined_whole : joined front nodes 70 = nodesAt front := nodesAt_congr fun _ inside => if_pos inside

theorem joined_eq_iff (inside : n ≤ 70) :
    joined front nodes n = target ↔ (∀ k, k < 512 * n → front k = image target k) ∧
      ∀ k, 512 * n ≤ k → k < nodeBytes → image nodes k = image target k := by
  rw [joined, nodesAt_eq_iff]
  constructor
  · intro same
    refine ⟨fun k below => ?_, fun k above within => ?_⟩
    · have := same k (by change k < 35840; omega)
      rwa [if_pos below] at this
    · have := same k within
      rwa [if_neg (by omega)] at this
  · rintro ⟨below, above⟩ k within
    by_cases came : k < 512 * n
    · rw [if_pos came]
      exact below k came
    · rw [if_neg came]
      exact above k (by omega) within

end Nodes

section Superblocks

variable (sb : Superblock)

/-- The five words are read back modulo the width they were written with. -/
theorem Superblock.ofSector_sector :
    Superblock.ofSector sb.sector = ⟨sb.magic % 2 ^ 32, sb.version % 2 ^ 32, sb.nodeCount % 2 ^ 32,
      sb.nodeSize % 2 ^ 32, sb.current % 2 ^ 32⟩ := by
  have field : ∀ place value, place < 5 →
      (∀ i : Fin 512, i.val / 4 = place → sb.sector i = byteOf value (i.val % 4)) →
      wordAt sb.sector.at (4 * place) = value % 2 ^ 32 := by
    intro place value first same
    apply wordAt_bytes
    intro k inside
    have quotient : (4 * place + k) / 4 = place := by omega
    have remainder : (4 * place + k) % 4 = k := by omega
    have spot : 4 * place + k < 512 := by omega
    refine (Buffer.at_inside sb.sector ⟨4 * place + k, spot⟩).trans ?_
    rw [same ⟨4 * place + k, spot⟩ quotient, remainder]
  have magic := field 0 sb.magic (by decide) fun i here => by simp [Superblock.sector, here]
  have version := field 1 sb.version (by decide) fun i here => by simp [Superblock.sector, here]
  have nodeCount := field 2 sb.nodeCount (by decide) fun i here => by simp [Superblock.sector, here]
  have nodeSize := field 3 sb.nodeSize (by decide) fun i here => by simp [Superblock.sector, here]
  have current := field 4 sb.current (by decide) fun i here => by simp [Superblock.sector, here]
  simp only [Superblock.ofSector, magic, version, nodeCount, nodeSize, current]

end Superblocks
end Seaweed
