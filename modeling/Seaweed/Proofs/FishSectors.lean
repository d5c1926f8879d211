import Seaweed.Proofs.FishImage

/-! What `fish_save` and `fish_load` leave on the drive and in memory, by the number of
transfers that succeed before the first one that fails. -/

namespace Seaweed
open Library

def Drive.Fine (d : Drive) (n : ℕ) : Prop := ∀ i, i < n → d.faulty (d.clock + i) = false

def Drive.ticks (d : Drive) (n : ℕ) : Drive := { d with clock := d.clock + n }

def Drive.area (d : Drive) : Bytes := fun k => (d.sectors (fishStartLba + 1 + k / 512)).at (k % 512)

def Drive.header (d : Drive) : Superblock := Superblock.ofSector (d.sectors fishStartLba)

section Faults

variable {d : Drive} {n : ℕ}

theorem Drive.fine_or_first_fault (d : Drive) (n : ℕ) :
    d.Fine n ∨ ∃ j, j < n ∧ d.Fine j ∧ d.faulty (d.clock + j) = true := by
  induction n with
  | zero => exact .inl fun i inside => absurd inside (Nat.not_lt_zero i)
  | succ n ih =>
    rcases ih with fine | ⟨j, before, fine, fault⟩
    · cases last : d.faulty (d.clock + n) with
      | true => exact .inr ⟨n, Nat.lt_succ_self n, fine, last⟩
      | false =>
        refine .inl fun i inside => ?_
        rcases Nat.lt_succ_iff_lt_or_eq.mp inside with earlier | rfl
        · exact fine i earlier
        · exact last
    · exact .inr ⟨j, Nat.lt_succ_of_lt before, fine, fault⟩

theorem Drive.Fine.first (fine : d.Fine (n + 1)) : d.faulty d.clock = false := fine 0 (Nat.succ_pos n)

theorem Drive.Fine.rest (fine : d.Fine (n + 1)) : d.tick.Fine n := by
  intro i inside
  have later := fine (i + 1) (Nat.succ_lt_succ inside)
  rwa [Nat.add_comm i 1, ← Nat.add_assoc] at later

end Faults

private theorem chunkOf_page {n : ℕ} (inside : n < 70) : chunkOf (512 * n) = 512 := by
  unfold chunkOf nodeBytes
  rw [if_neg (by omega)]

section Saving

def Fish.page (s : Fish) : ℕ → Sector
  | 0 => Superblock.sector ⟨fishMagic, fishVersion, fishMaxNodes, nodeSize, s.current.toUInt32.toNat⟩
  | p + 1 => fun i => image s.nodes (512 * p + i)

/-- The drive after the first `n` of these sectors were written to it. -/
def Drive.saved (d : Drive) (s : Fish) (n : ℕ) : Drive :=
  { d with
    clock := d.clock + n
    sectors := fun lba => if fishStartLba ≤ lba ∧ lba < fishStartLba + n then s.page (lba - fishStartLba) else d.sectors lba }

variable {d : Drive} {s : Fish} {n : ℕ}

theorem Drive.saved_zero : d.saved s 0 = d := by
  have none : ∀ lba, ¬ (fishStartLba ≤ lba ∧ lba < fishStartLba + 0) := fun lba => by omega
  simp only [Drive.saved, none, if_false, Nat.add_zero]

theorem Drive.saved_succ (present : d.present = true) (fine : d.faulty (d.clock + n) = false) :
    drive.write (fishStartLba + n) (s.page n) (d.saved s n) = (true, d.saved s (n + 1)) := by
  have after : Function.update (d.saved s n).sectors (fishStartLba + n) (s.page n) = (d.saved s (n + 1)).sectors := by
    funext lba
    simp only [Function.update_apply, Drive.saved]
    by_cases here : lba = fishStartLba + n
    · subst here
      rw [if_pos rfl, if_pos (by omega), Nat.add_sub_cancel_left]
    · rw [if_neg here]
      exact if_congr (by omega) rfl rfl
  simp only [drive, Drive.tick, after]
  simp [Drive.saved, present, fine, Nat.add_assoc]

theorem Drive.saved_fault (present : d.present = true) (fault : d.faulty (d.clock + n) = true) :
    drive.write (fishStartLba + n) (s.page n) (d.saved s n) = (false, (d.saved s n).tick) := by
  simp [drive, Drive.saved, present, fault]

private theorem page_sector : (fun i : Fin 512 => if i.val < 512 then image s.nodes (512 * n + i) else 0) = s.page (n + 1) :=
  funext fun i => if_pos i.isLt

private theorem saveSectors_written {a b : Drive} (left : ℕ) (inside : n < 70)
    (done : drive.write (fishStartLba + (n + 1)) (s.page (n + 1)) a = (true, b)) :
    saveSectors drive (image s.nodes) (left + 1) n (512 * n) a =
      saveSectors drive (image s.nodes) left (n + 1) (512 * (n + 1)) b := by
  rw [Nat.add_comm n 1, ← Nat.add_assoc, Nat.add_comm 1 n] at done
  simp only [saveSectors, chunkOf_page inside, page_sector, done]
  rfl

private theorem saveSectors_failed {a b : Drive} (left : ℕ) (inside : n < 70)
    (done : drive.write (fishStartLba + (n + 1)) (s.page (n + 1)) a = (false, b)) :
    saveSectors drive (image s.nodes) (left + 1) n (512 * n) a = (.io, b) := by
  rw [Nat.add_comm n 1, ← Nat.add_assoc, Nat.add_comm 1 n] at done
  simp only [saveSectors, chunkOf_page inside, page_sector, done]

theorem saveSectors_fine (left : ℕ) (present : d.present = true) (fine : d.Fine (n + 1)) (inside : n ≤ 70) :
    saveSectors drive (image s.nodes) (n + left) 0 0 (d.saved s 1) =
      saveSectors drive (image s.nodes) left n (512 * n) (d.saved s (n + 1)) := by
  induction n generalizing left with
  | zero => rw [Nat.zero_add, Nat.mul_zero, Nat.zero_add]
  | succ n ih =>
    have earlier : d.Fine (n + 1) := fun i before => fine i (by omega)
    have written := Drive.saved_succ (s := s) present (fine (n + 1) (by omega))
    rw [Nat.add_right_comm, Nat.add_assoc, ih (left + 1) earlier (by omega), saveSectors_written left (by omega) written]

private theorem fishSave_first {b : Drive} (present : d.present = true)
    (done : drive.write fishStartLba (s.page 0) d = (true, b)) :
    fishSave drive s d = saveSectors drive (image s.nodes) nodeSectors 0 0 b := by
  have here : drive.present d = true := present
  simp only [Fish.page] at done
  simp [fishSave, here, done]

theorem fishSave_fine (present : d.present = true) (fine : d.Fine 71) :
    fishSave drive s d = (.ok, d.saved s 71) := by
  have first := Drive.saved_succ (s := s) present (fine 0 (by decide))
  rw [Drive.saved_zero] at first
  rw [fishSave_first present first]
  exact saveSectors_fine 0 present fine (le_refl 70)

/-- A save whose write number `n` is the first that fails. -/
theorem fishSave_fault (present : d.present = true) (fine : d.Fine n) (inside : n < 71)
    (fault : d.faulty (d.clock + n) = true) : fishSave drive s d = (.io, (d.saved s n).tick) := by
  have failed := Drive.saved_fault (s := s) present fault
  cases n with
  | zero =>
    have here : drive.present d = true := present
    rw [Drive.saved_zero] at failed ⊢
    simp only [Fish.page, Nat.add_zero] at failed
    simp [fishSave, here, failed]
  | succ n =>
    have first := Drive.saved_succ (s := s) present (fine 0 (by omega))
    rw [Drive.saved_zero] at first
    obtain ⟨left, count⟩ : ∃ left, nodeSectors = n + (left + 1) := ⟨69 - n, by change 70 = _; omega⟩
    rw [fishSave_first present first, count, saveSectors_fine (left + 1) present fine (by omega),
      saveSectors_failed left (by omega) failed]

/-- What a save ends with, by how far its writes get. -/
theorem fishSave_cases (s : Fish) (d : Drive) :
    (d.present = false ∧ fishSave drive s d = (.nodisk, d)) ∨
    (d.present = true ∧ d.Fine 71 ∧ fishSave drive s d = (.ok, d.saved s 71)) ∨
    (d.present = true ∧ ∃ n, n < 71 ∧ d.Fine n ∧ d.faulty (d.clock + n) = true ∧
      fishSave drive s d = (.io, (d.saved s n).tick)) := by
  cases present : d.present with
  | false =>
    have here : drive.present d = false := present
    exact .inl ⟨rfl, by simp [fishSave, here]⟩
  | true =>
    right
    rcases d.fine_or_first_fault 71 with fine | ⟨n, inside, fine, fault⟩
    · exact .inl ⟨rfl, fine, fishSave_fine present fine⟩
    · exact .inr ⟨rfl, n, inside, fine, fault, fishSave_fault present fine inside fault⟩

end Saving

section Loading

variable {d : Drive} {s : Fish} {n : ℕ} {nodes : Fin fishMaxNodes → Node}

theorem Drive.joined_succ :
    pour (joined d.area nodes n) (512 * n) 512 (d.sectors (fishStartLba + (n + 1))) = joined d.area nodes (n + 1) := by
  apply nodesAt_congr
  intro k inside
  by_cases here : 512 * n ≤ k ∧ k < 512 * n + 512
  · have quotient : k / 512 = n := by omega
    have remainder : k % 512 = k - 512 * n := by omega
    rw [if_pos here, if_pos (by omega), Drive.area, quotient, remainder, Nat.add_assoc, Nat.add_comm 1 n]
  · rw [if_neg here, joined, image_nodesAt _ inside]
    exact if_congr (by omega) rfl rfl

private theorem loadSectors_came {a b : Drive} {sector : Sector} (left : ℕ) (inside : n < 70)
    (done : drive.read (fishStartLba + (n + 1)) a = (some sector, b)) :
    loadSectors drive (left + 1) n (512 * n) nodes a =
      loadSectors drive left (n + 1) (512 * (n + 1)) (pour nodes (512 * n) 512 sector) b := by
  rw [Nat.add_comm n 1, ← Nat.add_assoc] at done
  simp only [loadSectors, chunkOf_page inside, done]
  rfl

private theorem loadSectors_failed {a b : Drive} (left : ℕ)
    (done : drive.read (fishStartLba + (n + 1)) a = (none, b)) :
    loadSectors drive (left + 1) n (512 * n) nodes a = (.io, nodes, b) := by
  rw [Nat.add_comm n 1, ← Nat.add_assoc] at done
  simp only [loadSectors, done]

theorem Drive.read_fine (present : d.present = true) (fine : d.faulty (d.clock + n) = false) (lba : ℕ) :
    drive.read lba (d.ticks n) = (some (d.sectors lba), d.ticks (n + 1)) := by
  simp [drive, Drive.ticks, Drive.tick, present, fine, Nat.add_assoc]

theorem Drive.read_fault (present : d.present = true) (fault : d.faulty (d.clock + n) = true) (lba : ℕ) :
    drive.read lba (d.ticks n) = (none, d.ticks (n + 1)) := by
  simp [drive, Drive.ticks, Drive.tick, present, fault, Nat.add_assoc]

theorem loadSectors_fine (nodes : Fin fishMaxNodes → Node) (left : ℕ) (present : d.present = true) (fine : d.Fine (n + 1)) (inside : n ≤ 70) :
    loadSectors drive (n + left) 0 0 nodes (d.ticks 1) =
      loadSectors drive left n (512 * n) (joined d.area nodes n) (d.ticks (n + 1)) := by
  induction n generalizing left with
  | zero => rw [joined_zero, Nat.zero_add, Nat.mul_zero, Nat.zero_add]
  | succ n ih =>
    have earlier : d.Fine (n + 1) := fun i before => fine i (by omega)
    have came := Drive.read_fine present (fine (n + 1) (by omega)) (fishStartLba + (n + 1))
    rw [Nat.add_right_comm, Nat.add_assoc, ih (left + 1) earlier (by omega), loadSectors_came left (by omega) came,
      Drive.joined_succ]

def Superblock.Recognised (sb : Superblock) : Prop :=
  sb.magic = fishMagic ∧ sb.version = fishVersion ∧ sb.nodeCount = fishMaxNodes ∧ sb.nodeSize = Seaweed.nodeSize

instance (sb : Superblock) : Decidable sb.Recognised := inferInstanceAs (Decidable (_ ∧ _))

/-- `fish_load` once the superblock has come in and been recognised. -/
private theorem fishLoad_recognised {code : FishCode} {b : Drive} (present : d.present = true)
    (fine : d.faulty d.clock = false) (known : d.header.Recognised)
    (loaded : loadSectors drive nodeSectors 0 0 s.nodes (d.ticks 1) = (code, nodes, b)) :
    fishLoad drive s d =
      if code ≠ .ok then (code, { s with nodes := nodes }, b)
      else if (nodes 0).used = 0 ∨ (nodes 0).isDir = 0 then (.format, fishInit, b)
      else (.ok, ⟨nodes, loadCurrent nodes d.header.current⟩, b) := by
  have here : drive.present d = true := present
  have came : drive.read fishStartLba d = (some (d.sectors fishStartLba), d.ticks 1) :=
    Drive.read_fine (n := 0) present fine fishStartLba
  obtain ⟨magic, version, nodeCount, nodeSize⟩ := known
  simp only [Drive.header] at magic version nodeCount nodeSize ⊢
  unfold fishLoad
  simp only [here, came, magic, version, nodeCount, nodeSize, loaded]
  cases code <;> simp

/-- A load of which the read of node sector `n` is the first that fails. -/
theorem fishLoad_fault (present : d.present = true) (known : d.header.Recognised) (inside : n < 70)
    (fine : d.Fine (n + 1)) (fault : d.faulty (d.clock + (n + 1)) = true) :
    fishLoad drive s d = (.io, { s with nodes := joined d.area s.nodes n }, d.ticks (n + 2)) := by
  obtain ⟨left, count⟩ : ∃ left, nodeSectors = n + (left + 1) := ⟨69 - n, by change 70 = _; omega⟩
  have lost := Drive.read_fault present fault (fishStartLba + (n + 1))
  have loaded := (loadSectors_fine s.nodes (left + 1) present fine (by omega)).trans (loadSectors_failed left lost)
  rw [← count] at loaded
  exact fishLoad_recognised present (fine 0 (by omega)) known loaded

/-- What a load ends with, by how far its transfers get. -/
theorem fishLoad_cases (s : Fish) (d : Drive) :
    (d.present = false ∧ fishLoad drive s d = (.nodisk, s, d)) ∨
    (d.present = true ∧ d.faulty d.clock = true ∧ fishLoad drive s d = (.io, s, d.ticks 1)) ∨
    (d.present = true ∧ d.Fine 1 ∧ ¬ d.header.Recognised ∧ fishLoad drive s d = (.format, s, d.ticks 1)) ∨
    (d.present = true ∧ d.header.Recognised ∧ ∃ n, n < 70 ∧ d.Fine (n + 1) ∧ d.faulty (d.clock + (n + 1)) = true ∧
      fishLoad drive s d = (.io, { s with nodes := joined d.area s.nodes n }, d.ticks (n + 2))) ∨
    (d.present = true ∧ d.header.Recognised ∧ d.Fine 71 ∧
      fishLoad drive s d =
        if (nodesAt d.area 0).used = 0 ∨ (nodesAt d.area 0).isDir = 0 then (.format, fishInit, d.ticks 71)
        else (.ok, ⟨nodesAt d.area, loadCurrent (nodesAt d.area) d.header.current⟩, d.ticks 71)) := by
  cases present : d.present with
  | false =>
    have here : drive.present d = false := present
    exact .inl ⟨rfl, by simp [fishLoad, here]⟩
  | true =>
    right
    have here : drive.present d = true := present
    cases first : d.faulty d.clock with
    | true =>
      have lost : drive.read fishStartLba d = (none, d.ticks 1) :=
        Drive.read_fault (n := 0) present first fishStartLba
      exact .inl ⟨rfl, rfl, by simp [fishLoad, here, lost]⟩
    | false =>
      right
      have came : drive.read fishStartLba d = (some (d.sectors fishStartLba), d.ticks 1) :=
        Drive.read_fine (n := 0) present first fishStartLba
      by_cases known : d.header.Recognised
      · right
        rcases d.fine_or_first_fault 71 with fine | ⟨j, inside, fine, fault⟩
        · have loaded := loadSectors_fine s.nodes 0 present fine (le_refl 70)
          rw [joined_whole] at loaded
          exact .inr ⟨rfl, known, fine, fishLoad_recognised present first known loaded⟩
        · cases j with
          | zero => exact absurd (first.symm.trans fault) (by decide)
          | succ n =>
            have inner : n < 70 := by omega
            exact .inl ⟨rfl, known, n, inner, fine, fault, fishLoad_fault present known inner fine fault⟩
      · refine .inl ⟨rfl, fun i before => ?_, known, ?_⟩
        · rw [Nat.lt_one_iff.mp before]
          exact first
        · unfold fishLoad
          simp only [here, came, Bool.not_true, Bool.false_eq_true, if_false]
          split_ifs with magic version nodeCount nodeSize
          · rfl
          · rfl
          · rfl
          · rfl
          · exact absurd ⟨not_not.mp magic, not_not.mp version, not_not.mp nodeCount, not_not.mp nodeSize⟩ known

end Loading

end Seaweed
