import Seaweed.Proofs.AtaProtocol
import Seaweed.Proofs.PioTransfer

/-! `ata_read` and `ata_write` against a drive that answers as it should: whole sectors are
moved, for every address and count, and written ones are stored. -/

namespace Seaweed
open Library

variable {d : PioDrive} {p : Ports} {sector : Sector} {sectors : List Sector} {words : List UInt16} {m m' m'' : Bytes}
  {a : ℕ} {lba : UInt32} {count : UInt8}

section Halves

theorem half_toNat (low high : UInt8) : (low.toUInt16 ||| (high.toUInt16 <<< 8)).toNat = 256 * high.toNat + low.toNat := by
  have small := low.toNat_lt
  have large := high.toNat_lt
  have joined := @Nat.two_pow_add_eq_or_of_lt 8 low.toNat small high.toNat
  simp only [UInt16.toNat_or, UInt16.toNat_shiftLeft, UInt8.toNat_toUInt16, UInt16.toNat_ofNat, Nat.shiftLeft_eq]
  have byte : 2 ^ (8 % 2 ^ 16 % 16) = 2 ^ 8 := rfl
  rw [byte, Nat.mod_eq_of_lt (by omega : high.toNat * 2 ^ 8 < 2 ^ 16), Nat.or_comm, Nat.mul_comm]
  exact joined.symm

theorem halfAt_low (m : Bytes) (a : ℕ) : (halfAt m a).toUInt8 = m a := by
  have small := (m a).toNat_lt
  apply UInt8.toNat_inj.mp
  rw [UInt16.toNat_toUInt8, halfAt, half_toNat]
  omega

theorem halfAt_high (m : Bytes) (a : ℕ) : (halfAt m a >>> 8).toUInt8 = m (a + 1) := by
  have small := (m a).toNat_lt
  have large := (m (a + 1)).toNat_lt
  apply UInt8.toNat_inj.mp
  rw [UInt16.toNat_toUInt8, UInt16.toNat_shiftRight, halfAt, half_toNat, Nat.shiftRight_eq_div_pow]
  change (256 * (m (a + 1)).toNat + (m a).toNat) / 2 ^ 8 % 2 ^ 8 = _
  omega

theorem Buffer.at_val {n : ℕ} (buffer : Buffer n) (i : Fin n) : buffer.at i = buffer i := dif_pos i.isLt

/-- The words of a sector, poured out, are its bytes. -/
theorem Filled.bytes (filled : Filled a sector.words m m') : (∀ i : Fin 512, m' (a + i) = sector i) ∧
    ∀ x, x < a ∨ a + 512 ≤ x → m' x = m x := by
  have length : sector.words.length = 256 := List.length_ofFn
  refine ⟨fun i => ?_, fun x apart => filled.kept x (by omega)⟩
  have bound := i.isLt
  have found : sector.words[i.val / 2]? = some (halfAt sector.at (2 * (i.val / 2))) := by
    rw [List.getElem?_eq_getElem (by omega)]
    exact congrArg some (List.getElem_ofFn ..)
  rcases Nat.mod_two_eq_zero_or_one i.val with even | odd
  · have place : a + i.val = a + 2 * (i.val / 2) := by omega
    rw [place, filled.low _ _ found, halfAt_low, show 2 * (i.val / 2) = i.val by omega, Buffer.at_val]
  · have place : a + i.val = a + 2 * (i.val / 2) + 1 := by omega
    rw [place, filled.high _ _ found, halfAt_high, show 2 * (i.val / 2) + 1 = i.val by omega, Buffer.at_val]

/-- The sector that the bytes of a buffer from `a` on make. -/
def sectorAt (m : Bytes) (a : ℕ) : Sector := fun i => m (a + i)

theorem sectorOf_halves (m : Bytes) (a : ℕ) : sectorOf (halves m a sectorWords) = sectorAt m a := by
  funext i
  have bound := i.isLt
  have found : (halves m a sectorWords).getD (i.val / 2) 0 = halfAt m (a + 2 * (i.val / 2)) := by
    have inside : i.val / 2 < (halves m a sectorWords).length := by
      rw [halves, List.length_map, List.length_range]
      simp only [sectorWords]
      omega
    rw [List.getD_eq_getElem _ _ inside]
    simp only [halves, List.getElem_map, List.getElem_range]
  rw [sectorOf, found, sectorAt]
  split
  · rw [halfAt_low]
    congr 1
    omega
  · rw [halfAt_high]
    congr 1
    omega

end Halves

section Reading

/-- Sectors stand in the buffer from `a` on, and the rest of it is kept. -/
def Poured (a : ℕ) (sectors : List Sector) (m m' : Bytes) : Prop :=
  (∀ (k : ℕ) (sector : Sector), sectors[k]? = some sector → ∀ i : Fin 512, m' (a + 512 * k + i) = sector i) ∧
    ∀ x, x < a ∨ a + 512 * sectors.length ≤ x → m' x = m x

theorem Poured.nothing : Poured a [] m m := ⟨fun k sector found => (by cases found), fun _ _ => rfl⟩

theorem Poured.cons (first : Filled a sector.words m m') (rest : Poured (a + 512) sectors m' m'') :
    Poured a (sector :: sectors) m m'' := by
  obtain ⟨bytes, kept⟩ := first.bytes
  refine ⟨fun k other found i => ?_, fun x apart => ?_⟩
  · have bound := i.isLt
    cases k with
    | zero =>
      cases found
      rw [rest.2 _ (.inl (by omega))]
      exact bytes i
    | succ k =>
      rw [← rest.1 k other found i]
      congr 1
      omega
  · rw [List.length_cons, Nat.mul_succ] at apart
    rcases apart with low | high
    · exact (rest.2 x (.inl (low.trans_le (Nat.le_add_right a 512)))).trans (kept x (.inl low))
    · have outer : a + 512 + 512 * sectors.length ≤ x := by linarith
      exact (rest.2 x (.inr outer)).trans (kept x (.inr ((Nat.le_add_right ..).trans outer)))

/-- What the drive is at when these sectors are to come. -/
def Task.Hands : List Sector → Task → Prop
  | [], t => t = .idle
  | sector :: sectors, t =>
    Soon (fun polls => .preparing polls sector.words (sectors.map Sector.words)) (.sending sector.words (sectors.map Sector.words)) t

theorem Task.next_hands (sectors : List Sector) : (Task.next (sectors.map Sector.words)).Hands sectors := by
  cases sectors with
  | nil => rfl
  | cons sector sectors => exact .inr ⟨0, by decide, rfl⟩

theorem delay400ns_hands (attached : d.attached = true) (hands : d.task.Hands sectors) (p : Ports) :
    pio.Serves d p.trace (delay400ns p).trace fun after => ∃ t, after = { d with task := t } ∧ t.Hands sectors := by
  cases sectors with
  | nil =>
    refine (delay400ns_idle attached hands p).mono fun after same => ⟨d.task, ?_, hands⟩
    rw [same]
  | cons sector sectors => exact delay400ns_soon attached (.block _ _) hands p

theorem readSectors_serves {sector : UInt8} (attached : d.attached = true) (hands : d.task.Hands sectors)
    (left : sector.toNat + sectors.length = count.toNat) (a : ℕ) (m : Bytes) (p : Ports) :
    pio.Serves d p.trace (readSectors count sector a m p).2.2.trace fun after =>
      (readSectors count sector a m p).1 = 0 ∧ Poured a sectors m (readSectors count sector a m p).2.1 ∧
        after = { d with task := .idle } := by
  induction sectors generalizing d sector a m p with
  | nil =>
    have last : ¬ sector < count := by
      intro more
      have counts := sector_counts more
      rw [List.length_nil] at left
      omega
    rw [readSectors, if_neg last]
    refine .refl ⟨rfl, .nothing, ?_⟩
    rw [← hands]
  | cons next sectors ih =>
    rw [List.length_cons] at left
    have more : sector < count := UInt8.lt_iff_toNat_lt.mpr (by omega)
    have counts := (sector_counts more).1
    have ready := waitReady_serves attached (.block _ _) hands p
    rcases wait : waitReady p with ⟨result, p₁⟩
    rw [wait] at ready
    by_cases good : result = 0
    · have run : readSectors count sector a m p =
          readSectors count (sector + 1) (a + 2 * sectorWords) (readWords sectorWords a m p₁).1
            (delay400ns (readWords sectorWords a m p₁).2) := by
        rw [readSectors, if_pos more, wait]
        exact if_neg (not_not_intro good)
      rw [run]
      obtain ⟨word, rest, words⟩ : ∃ word rest, next.words = word :: rest := List.exists_cons_of_length_eq_add_one List.length_ofFn
      have length : rest.length + 1 = sectorWords := by
        rw [← List.length_cons, ← words]
        exact List.length_ofFn
      have moves : pio.Serves { d with task := .sending next.words (sectors.map Sector.words) } p₁.trace
          (readWords sectorWords a m p₁).2.trace fun after =>
            Filled a next.words m (readWords sectorWords a m p₁).1 ∧ after = { d with task := .next (sectors.map Sector.words) } := by
        have moved := readWords_serves (d := { d with task := .sending next.words (sectors.map Sector.words) }) attached
          (congrArg (Task.sending · _) words) m a p₁
        rwa [length, ← words] at moved
      rcases moved : readWords sectorWords a m p₁ with ⟨m₁, p₂⟩
      rw [moved] at moves
      have left' : (sector + 1).toNat + sectors.length = count.toNat := by omega
      have grows : (delay400ns p₂).trace <+: (readSectors count (sector + 1) (a + 2 * sectorWords) m₁ (delay400ns p₂)).2.2.trace := by
        obtain ⟨_, _, did, _⟩ := readSectors_transfer left' (a + 2 * sectorWords) m₁ (delay400ns p₂)
        exact ⟨_, did.trace.symm⟩
      obtain ⟨_, paused⟩ := delay400ns_did p₂
      have pause : p₂.trace <+: (delay400ns p₂).trace := ⟨_, paused.trace.symm⟩
      refine ready.andThen (moves.grows.trans (pause.trans grows)) ?_
      rintro after ⟨_, rfl⟩
      refine moves.andThen (pause.trans grows) ?_
      rintro after ⟨filled, rfl⟩
      have paused := delay400ns_hands (d := { d with task := .next (sectors.map Sector.words) }) attached (Task.next_hands sectors) p₂
      refine paused.andThen grows ?_
      rintro after ⟨t, rfl, hands'⟩
      refine (ih (d := { d with task := t }) attached hands' left' (a + 2 * sectorWords) m₁ (delay400ns p₂)).mono ?_
      rintro final ⟨done, poured, rfl⟩
      have place : a + 2 * sectorWords = a + 512 := rfl
      rw [place] at poured
      exact ⟨done, .cons filled poured, rfl⟩
    · have run : readSectors count sector a m p = (result, m, p₁) := by
        rw [readSectors, if_pos more, wait]
        exact if_pos good
      rw [run]
      exact ready.mono fun after holds => absurd holds.1 good

end Reading

section Writing

/-- Sectors of a buffer from `a` on, written from sector `start` on. -/
def written (cache : ℕ → Sector) (start n : ℕ) (m : Bytes) (a : ℕ) : ℕ → Sector := fun k =>
  if start ≤ k ∧ k < start + n then sectorAt m (a + 512 * (k - start)) else cache k

theorem written_succ (cache : ℕ → Sector) (start n : ℕ) (m : Bytes) (a : ℕ) :
    written (Function.update cache start (sectorAt m a)) (start + 1) n m (a + 512) = written cache start (n + 1) m a := by
  funext k
  unfold written
  by_cases first : k = start
  · subst first
    rw [if_neg (by omega), if_pos (by omega), Function.update_self, Nat.sub_self, Nat.mul_zero, Nat.add_zero]
  · rw [Function.update_of_ne first]
    by_cases inside : start + 1 ≤ k ∧ k < start + 1 + n
    · obtain ⟨low, high⟩ := inside
      have place : k - start = k - (start + 1) + 1 := by omega
      rw [if_pos ⟨low, high⟩, if_pos (by omega), place, Nat.mul_succ, Nat.add_assoc a, Nat.add_comm 512]
    · rw [if_neg inside, if_neg (by omega)]

theorem written_zero (cache : ℕ → Sector) (start : ℕ) (m : Bytes) (a : ℕ) : written cache start 0 m a = cache := by
  funext k
  exact if_neg (by omega)

/-- What the drive is at when `n` blocks from `lba` on are still to come. -/
def Task.Wants (lba : ℕ) : ℕ → Task → Prop
  | 0, t => t = .idle
  | more + 1, t => Soon (fun polls => .asking polls lba more) (.taking lba more []) t

/-- After a block and the pause behind it, the drive wants the next one, or rests. -/
theorem stowed_paused (attached : d.attached = true) (lba more : ℕ) (p : Ports) :
    pio.Serves (d.stowed lba more sector) p.trace (delay400ns p).trace fun after =>
      ∃ t, after = { d with cache := Function.update d.cache lba sector, task := t } ∧ t.Wants (lba + 1) more := by
  cases more with
  | zero =>
    refine (delay400ns_settles (d := d.stowed lba 0 sector) attached rfl p).mono ?_
    rintro after rfl
    exact ⟨.idle, rfl, rfl⟩
  | succ more =>
    have soon : Soon (fun polls => .asking polls (lba + 1) more) (.taking (lba + 1) more []) (d.stowed lba (more + 1) sector).task :=
      .inr ⟨0, by decide, rfl⟩
    refine (delay400ns_soon (d := d.stowed lba (more + 1) sector) attached (.room _ _) soon p).mono ?_
    rintro after ⟨t, rfl, soon'⟩
    exact ⟨t, rfl, soon'⟩

theorem writeSectors_serves {sector : UInt8} {start n : ℕ} (attached : d.attached = true) (wants : d.task.Wants start n)
    (left : sector.toNat + n = count.toNat) (m : Bytes) (a : ℕ) (p : Ports) :
    pio.Serves d p.trace (writeSectors count sector m a p).2.trace fun after =>
      (writeSectors count sector m a p).1 = 0 ∧ after = { d with cache := written d.cache start n m a, task := .idle } := by
  induction n generalizing d sector start a p with
  | zero =>
    have last : ¬ sector < count := by
      intro more
      have counts := sector_counts more
      omega
    rw [writeSectors, if_neg last]
    refine .refl ⟨rfl, ?_⟩
    rw [written_zero, ← wants]
  | succ n ih =>
    have more : sector < count := UInt8.lt_iff_toNat_lt.mpr (by omega)
    have counts := (sector_counts more).1
    have ready := waitReady_serves attached (.room _ _) wants p
    rcases wait : waitReady p with ⟨result, p₁⟩
    rw [wait] at ready
    by_cases good : result = 0
    · have run : writeSectors count sector m a p =
          writeSectors count (sector + 1) m (a + 2 * sectorWords) (delay400ns (writeWords m sectorWords a p₁)) := by
        rw [writeSectors, if_pos more, wait]
        exact if_neg (not_not_intro good)
      rw [run]
      have moves : pio.Serves { d with task := .taking start n [] } p₁.trace (writeWords m sectorWords a p₁).trace fun after =>
          after = d.stowed start n (sectorAt m a) := by
        rw [← sectorOf_halves]
        exact writeWords_serves (d := { d with task := .taking start n [] }) attached rfl rfl m a p₁
      generalize writeWords m sectorWords a p₁ = p₂ at moves ⊢
      have left' : (sector + 1).toNat + n = count.toNat := by omega
      have grows : (delay400ns p₂).trace <+: (writeSectors count (sector + 1) m (a + 2 * sectorWords) (delay400ns p₂)).2.trace := by
        obtain ⟨_, _, did, _⟩ := writeSectors_transfer left' m (a + 2 * sectorWords) (delay400ns p₂)
        exact ⟨_, did.trace.symm⟩
      obtain ⟨_, did⟩ := delay400ns_did p₂
      have pause : p₂.trace <+: (delay400ns p₂).trace := ⟨_, did.trace.symm⟩
      refine ready.andThen (moves.grows.trans (pause.trans grows)) ?_
      rintro after ⟨_, rfl⟩
      refine moves.andThen (pause.trans grows) ?_
      rintro after rfl
      refine (stowed_paused attached start n p₂).andThen grows ?_
      rintro after ⟨t, rfl, wants'⟩
      refine (ih (d := { d with cache := Function.update d.cache start (sectorAt m a), task := t }) attached wants' left'
        (a + 2 * sectorWords) (delay400ns p₂)).mono ?_
      rintro final ⟨done, rfl⟩
      have place : a + 2 * sectorWords = a + 512 := rfl
      refine ⟨done, ?_⟩
      rw [place, written_succ]
    · have run : writeSectors count sector m a p = (result, p₁) := by
        rw [writeSectors, if_pos more, wait]
        exact if_pos good
      rw [run]
      exact ready.mono fun after holds => absurd holds.1 good

end Writing
end Seaweed
