import Seaweed.Proofs.FishRuns
import Seaweed.Proofs.FishSectors

/-! Saving and loading together: a whole save is undone by a load, and what is left of
the old tree when either of the two is cut short. -/

namespace Seaweed
open Library

section Within

variable {σ : Type} (ata : Ata σ) (holds : σ → Prop)

private theorem saveSectors_within
    (kept : ∀ lba sector d, fishStartLba ≤ lba → lba ≤ 2118 → holds d → holds (ata.write lba sector d).2)
    (source : Bytes) (left s written : ℕ) (d : σ) (inside : s + left ≤ nodeSectors) (before : holds d) :
    holds (saveSectors ata source left s written d).2 := by
  induction left generalizing s written d with
  | zero => exact before
  | succ left ih =>
    change s + (left + 1) ≤ 70 at inside
    have after := kept (fishStartLba + 1 + s) (fun i => if i.val < chunkOf written then source (written + i) else 0) d
      (by omega) (by change 2048 + 1 + s ≤ 2118; omega) before
    rw [saveSectors]
    split
    next failed => rwa [failed] at after
    next done =>
      rw [done] at after
      exact ih (s + 1) (written + chunkOf written) _ (by change _ ≤ 70; omega) after

/-- Whatever the device, a save writes to no sector outside 2048 to 2118. -/
theorem fishSave_within
    (kept : ∀ lba sector d, fishStartLba ≤ lba → lba ≤ 2118 → holds d → holds (ata.write lba sector d).2)
    (s : Fish) (d : σ) (before : holds d) : holds (fishSave ata s d).2 := by
  rw [fishSave]
  split
  · exact before
  have after := kept fishStartLba
    (Superblock.sector ⟨fishMagic, fishVersion, fishMaxNodes, nodeSize, s.current.toUInt32.toNat⟩) d (le_refl _) (by decide) before
  split
  next failed => rwa [failed] at after
  next done =>
    rw [done] at after
    exact saveSectors_within ata holds kept _ _ _ _ _ (le_refl _) after

end Within

section Images

variable {d : Drive} {s : Fish} {n k : ℕ}

theorem Drive.saved_header : (d.saved s (n + 1)).header = ⟨fishMagic, fishVersion, fishMaxNodes, nodeSize, s.current.toUInt32.toNat⟩ := by
  have first : (d.saved s (n + 1)).sectors fishStartLba = s.page 0 := by
    simp [Drive.saved]
  rw [Drive.header, first, Fish.page, Superblock.ofSector_sector, Nat.mod_eq_of_lt s.current.toUInt32.toNat_lt]
  rfl

theorem Drive.saved_area :
    (d.saved s (n + 1)).area k = if k < 512 * n then image s.nodes k else d.area k := by
  simp only [Drive.area, Drive.saved]
  by_cases written : k < 512 * n
  · have place : fishStartLba + 1 + k / 512 - fishStartLba = k / 512 + 1 := by omega
    have whole : 512 * (k / 512) + k % 512 = k := Nat.div_add_mod k 512
    rw [if_pos written, if_pos (by omega), place]
    refine (Buffer.at_inside _ ⟨k % 512, Nat.mod_lt k (by decide)⟩).trans ?_
    simp only [Fish.page, whole]
  · rw [if_neg written, if_neg (by omega)]

theorem Drive.saved_whole : nodesAt (d.saved s 71).area = s.nodes :=
  nodesAt_eq_iff.mpr fun k inside => by
    rw [Drive.saved_area]
    exact if_pos inside

theorem toNat_index (c : Fin fishMaxNodes) : (index c).toUInt32.toNat = c.val := by
  have below := slot_lt c
  exact UInt32.toNat_ofNat_of_lt' (by simp only [UInt32.size]; omega)

theorem loadCurrent_index {nodes : Fin fishMaxNodes → Node} {c : Fin fishMaxNodes} (used : (nodes c).used ≠ 0)
    (dir : (nodes c).isDir ≠ 0) : loadCurrent nodes (index c).toUInt32.toNat = index c := by
  simp [toNat_index, loadCurrent, used, dir]

theorem loadCurrent_saved (sound : Sound s) : loadCurrent s.nodes s.current.toUInt32.toNat = s.current := by
  obtain ⟨c, here, used, dir⟩ := sound.cwd
  rw [here]
  exact loadCurrent_index used dir

end Images

/-- A drive on which every transfer succeeds. -/
structure Drive.Healthy (d : Drive) : Prop where
  present : d.present = true
  fine : ∀ n, d.faulty n = false

/-- A load from a healthy drive with a superblock that it recognises. -/
theorem Drive.Healthy.fishLoad_eq {d : Drive} (healthy : d.Healthy) (known : d.header.Recognised) (ram : Fish) :
    fishLoad drive ram d =
      if (nodesAt d.area 0).used = 0 ∨ (nodesAt d.area 0).isDir = 0 then (.format, fishInit, d.ticks 71)
      else (.ok, ⟨nodesAt d.area, loadCurrent (nodesAt d.area) d.header.current⟩, d.ticks 71) := by
  rcases fishLoad_cases ram d with ⟨absent, _⟩ | ⟨_, fault, _⟩ | ⟨_, _, unknown, _⟩ | ⟨_, _, n, _, _, fault, _⟩ |
    ⟨_, _, _, done⟩
  · exact absurd (absent.symm.trans healthy.present) (by decide)
  · exact absurd (fault.symm.trans (healthy.fine _)) (by decide)
  · exact absurd known unknown
  · exact absurd (fault.symm.trans (healthy.fine _)) (by decide)
  · exact done

theorem Drive.saved_healthy {d : Drive} {s : Fish} {n : ℕ} (healthy : d.Healthy) : (d.saved s n).Healthy :=
  ⟨healthy.present, healthy.fine⟩

theorem Drive.Healthy.load_image {d : Drive} (healthy : d.Healthy) {nodes : Fin fishMaxNodes → Node} {current : ℕ}
    (header : d.header = ⟨fishMagic, fishVersion, fishMaxNodes, nodeSize, current⟩) (area : nodesAt d.area = nodes)
    (root : ¬ ((nodes 0).used = 0 ∨ (nodes 0).isDir = 0)) (ram : Fish) :
    fishLoad drive ram d = (.ok, ⟨nodes, loadCurrent nodes current⟩, d.ticks 71) := by
  have known : d.header.Recognised := by
    rw [header]
    exact ⟨rfl, rfl, rfl, rfl⟩
  rw [healthy.fishLoad_eq known, header, area, if_neg root]

theorem Sound.load_saved {s : Fish} (sound : Sound s) {d : Drive} (healthy : d.Healthy) (ram : Fish) :
    fishLoad drive ram (d.saved s 71) = (.ok, s, (d.saved s 71).ticks 71) := by
  have root : ¬ ((s.nodes 0).used = 0 ∨ (s.nodes 0).isDir = 0) := not_or.mpr ⟨sound.root.1, sound.root.2.1⟩
  rw [(Drive.saved_healthy healthy).load_image Drive.saved_header Drive.saved_whole root, loadCurrent_saved sound]

theorem fish_load_undoes_save (s : Fish) (reached : Reached s) (d : Drive) (healthy : d.Healthy) (ram : Fish) :
    ∃ saved, fishSave drive s d = (.ok, saved) ∧
      (∃ after, fishLoad drive ram saved = (.ok, s, after)) ∧
      (∀ lba, lba < 2048 ∨ 2118 < lba → saved.sectors lba = d.sectors lba) ∧
      ∀ (σ : Type) (ata : Ata σ) (holds : σ → Prop),
        (∀ lba sector device, 2048 ≤ lba → lba ≤ 2118 → holds device → holds (ata.write lba sector device).2) →
        ∀ device, holds device → holds (fishSave ata s device).2 := by
  refine ⟨d.saved s 71, fishSave_fine healthy.present fun i _ => healthy.fine _, ?_, ?_, ?_⟩
  · exact ⟨_, reached.valid.toSound.load_saved healthy ram⟩
  · intro lba outside
    exact if_neg (by change ¬ (2048 ≤ lba ∧ lba < 2048 + 71); omega)
  · intro σ ata holds kept device before
    exact fishSave_within ata holds kept s device before

def Drive.blank : Drive := ⟨true, true, fun _ _ => 0, fun _ => false, 0⟩

theorem Drive.blank_healthy : Drive.blank.Healthy := ⟨rfl, fun _ => rfl⟩

/-- After `mkdir a` and `cd a`, on a blank drive and over an empty tree. -/
theorem fish_load_undoes_save_in_directory :
    ∃ s saved after, runCalls fishInit [.mkdir ⟨[97], by decide⟩, .chdir ⟨[97], by decide⟩] = .ok s ∧
      fishSave drive s Drive.blank = (.ok, saved) ∧ fishLoad drive fishInit saved = (.ok, s, after) := by
  obtain ⟨s, ran, _⟩ := run_valid [.mkdir ⟨[97], by decide⟩, .chdir ⟨[97], by decide⟩] fishInit_valid
  obtain ⟨saved, wrote, ⟨after, loaded⟩, _⟩ :=
    fish_load_undoes_save s ⟨_, ran⟩ Drive.blank Drive.blank_healthy fishInit
  exact ⟨s, saved, after, ran, wrote, loaded⟩

section FailedLoad

/-- A load that fails has kept the tree, or has put the empty one in its place. -/
def KeepsOrClears (ram : Fish) (d : Drive) : Prop :=
  (fishLoad drive ram d).1.value < 0 → (fishLoad drive ram d).2.1 = ram ∨ (fishLoad drive ram d).2.1 = fishInit

/-- A failed load half-replaces the tree exactly when a read of node sector `n` is the
first to fail and the sectors before it differ both from the tree and from the empty one. -/
theorem failed_load_keeps_or_clears_iff (ram : Fish) (d : Drive) :
    KeepsOrClears ram d ↔
      ∀ n, n < 70 → d.present = true → d.header.Recognised → d.Fine (n + 1) → d.faulty (d.clock + (n + 1)) = true →
        (∀ k, k < 512 * n → d.area k = image ram.nodes k) ∨
          (ram.current = 0 ∧ (∀ k, k < 512 * n → d.area k = image fishInit.nodes k) ∧
            ∀ k, 512 * n ≤ k → k < nodeBytes → image ram.nodes k = image fishInit.nodes k) := by
  have settled : ∀ n, n < 70 →
      (({ ram with nodes := joined d.area ram.nodes n } = ram ∨ { ram with nodes := joined d.area ram.nodes n } = fishInit) ↔
        (∀ k, k < 512 * n → d.area k = image ram.nodes k) ∨
          (ram.current = 0 ∧ (∀ k, k < 512 * n → d.area k = image fishInit.nodes k) ∧
            ∀ k, 512 * n ≤ k → k < nodeBytes → image ram.nodes k = image fishInit.nodes k)) := by
    intro n inside
    rw [Fish.ext_iff, Fish.ext_iff, joined_eq_iff (by omega), joined_eq_iff (by omega)]
    apply or_congr
    · exact ⟨fun same => same.1.1, fun same => ⟨⟨same, fun _ _ _ => rfl⟩, rfl⟩⟩
    · exact ⟨fun same => ⟨same.2, same.1⟩, fun same => ⟨same.2, same.1⟩⟩
  unfold KeepsOrClears
  constructor
  · intro keeps n inside present known fine fault
    rw [fishLoad_fault present known inside fine fault] at keeps
    exact (settled n inside).mp (keeps ((FishCode.value_neg_iff .io).mpr (by decide)))
  · intro agrees negative
    rcases fishLoad_cases ram d with ⟨_, done⟩ | ⟨_, _, done⟩ | ⟨_, _, _, done⟩ |
      ⟨present, known, n, inside, fine, fault, done⟩ | ⟨_, _, _, done⟩
    · exact .inl (by rw [done])
    · exact .inl (by rw [done])
    · exact .inl (by rw [done])
    · rw [done]
      exact (settled n inside).mpr (agrees n inside present known fine fault)
    · rw [done] at negative ⊢
      split at negative
      next missing => exact .inr (by rw [if_pos missing])
      next => exact absurd rfl ((FishCode.value_neg_iff .ok).mp negative)

def marked : Fish := fishInit.set 1 { Node.zero with used := 1 }

/-- A drive that holds `marked` and fails the fourth transfer from now. -/
def Drive.wornOut : Drive := { Drive.blank.saved marked 71 with faulty := fun t => t == 74 }

/-- Loading it over an empty tree fails with node 1 in use and the rest untouched. -/
theorem failed_load_mixes : ¬ ∀ ram d, Valid ram → KeepsOrClears ram d := by
  intro all
  have header := Drive.saved_header (d := Drive.blank) (s := marked) (n := 70)
  have known : Drive.wornOut.header.Recognised := by
    change (Drive.blank.saved marked 71).header.Recognised
    rw [header]
    exact ⟨rfl, rfl, rfl, rfl⟩
  have fine : Drive.wornOut.Fine 3 := by
    intro i before
    change (71 + i == 74) = false
    simp
    omega
  have loaded := fishLoad_fault (s := fishInit) (d := Drive.wornOut) (n := 2) rfl known (by decide) fine rfl
  have keeps := all fishInit Drive.wornOut fishInit_valid
  rw [KeepsOrClears, loaded, or_self] at keeps
  have same := congrArg Fish.nodes (keeps ((FishCode.value_neg_iff .io).mpr (by decide)))
  have byte := ((joined_eq_iff (by decide)).mp same).1 592 (by decide)
  have stored : Drive.wornOut.area 592 = image marked.nodes 592 := Drive.saved_area (d := Drive.blank) (n := 70)
  exact absurd (stored.symm.trans byte) (by decide)

end FailedLoad

section CutSave

variable {t0 t1 : Fish} {d : Drive} {n k : ℕ}

/-- What the disk holds when `t0` was saved and write number `k` of saving `t1` failed.
The superblock is written first, and nothing on the disk tells the two saves apart. -/
def cutTree (t0 t1 : Fish) : ℕ → Fish
  | 0 => t0
  | n + 1 =>
    let nodes := joined (image t1.nodes) t0.nodes n
    ⟨nodes, loadCurrent nodes t1.current.toUInt32.toNat⟩

def Drive.healed (d : Drive) : Drive := { d with faulty := fun _ => false }

/-- The first sector settles whether the root is a used directory. -/
theorem root_flags (m : Bytes) (nodes : Fin fishMaxNodes → Node) (same : ∀ j, j < 512 → m j = image nodes j) :
    (nodesAt m 0).used = (nodes 0).used ∧ (nodesAt m 0).isDir = (nodes 0).isDir := by
  have word : ∀ a, a < 500 → wordAt m (0 + a) = wordAt (image nodes) (0 + a) := fun a low =>
    wordAt_congr fun j inside => same _ (by omega)
  have used : (nodesAt m 0).used = (nodesAt (image nodes) 0).used :=
    congrArg (fun w => (UInt32.ofNat w).toInt32) (word 32 (by decide))
  have isDir : (nodesAt m 0).isDir = (nodesAt (image nodes) 0).isDir :=
    congrArg (fun w => (UInt32.ofNat w).toInt32) (word 36 (by decide))
  rw [nodesAt_image] at used isDir
  exact ⟨used, isDir⟩

theorem joined_root (sound0 : Sound t0) (sound1 : Sound t1) (n : ℕ) :
    ¬ ((joined (image t1.nodes) t0.nodes n 0).used = 0 ∨ (joined (image t1.nodes) t0.nodes n 0).isDir = 0) := by
  rw [not_or]
  cases n with
  | zero =>
    rw [joined_zero]
    exact ⟨sound0.root.1, sound0.root.2.1⟩
  | succ n =>
    have flags := root_flags (fun j => if j < 512 * (n + 1) then image t1.nodes j else image t0.nodes j) t1.nodes
      fun j inside => if_pos (by omega)
    rw [joined, flags.1, flags.2]
    exact ⟨sound1.root.1, sound1.root.2.1⟩

theorem Sound.load_cut (sound0 : Sound t0) (sound1 : Sound t1) {before d cut : Drive}
    (whole : fishSave drive t0 before = (.ok, d)) (failed : fishSave drive t1 d = (.io, cut)) (ram : Fish) :
    ∃ k, k < 71 ∧ d.Fine k ∧ d.faulty (d.clock + k) = true ∧
      ∃ after, fishLoad drive ram cut.healed = (.ok, cutTree t0 t1 k, after) := by
  obtain ⟨present, rfl⟩ : d.present = true ∧ d = before.saved t0 71 := by
    rcases fishSave_cases t0 before with ⟨_, done⟩ | ⟨present, _, done⟩ | ⟨_, _, _, _, _, done⟩
    · cases done.symm.trans whole
    · cases done.symm.trans whole
      exact ⟨present, rfl⟩
    · cases done.symm.trans whole
  rcases fishSave_cases t1 (before.saved t0 71) with ⟨_, done⟩ | ⟨_, _, done⟩ | ⟨_, k, inside, fine, fault, done⟩
  · cases done.symm.trans failed
  · cases done.symm.trans failed
  cases done.symm.trans failed
  refine ⟨k, inside, fine, fault, ?_⟩
  have healthy : (((before.saved t0 71).saved t1 k).tick.healed).Healthy := ⟨present, fun _ => rfl⟩
  cases k with
  | zero =>
    rw [Drive.saved_zero] at healthy ⊢
    have root : ¬ ((t0.nodes 0).used = 0 ∨ (t0.nodes 0).isDir = 0) := not_or.mpr ⟨sound0.root.1, sound0.root.2.1⟩
    have loaded := healthy.load_image Drive.saved_header Drive.saved_whole root ram
    rw [loadCurrent_saved sound0] at loaded
    exact ⟨_, loaded⟩
  | succ n =>
    have area : nodesAt ((before.saved t0 71).saved t1 (n + 1)).tick.healed.area = joined (image t1.nodes) t0.nodes n := by
      refine nodesAt_congr fun j within => Drive.saved_area.trans ?_
      have old : (before.saved t0 71).area j = image t0.nodes j := Drive.saved_area.trans (if_pos within)
      rw [old]
    exact ⟨_, healthy.load_image Drive.saved_header area (joined_root sound0 sound1 n) ram⟩

/-- After a save that was cut short a load answers `FISH_OK` with the cut tree, and that
is one of the two trees only where they agree on the bytes it lacks. -/
theorem fish_load_after_cut_save {t0 t1 : Fish} (reached0 : Reached t0) (reached1 : Reached t1)
    {before d cut : Drive} (whole : fishSave drive t0 before = (.ok, d))
    (failed : fishSave drive t1 d = (.io, cut)) (ram : Fish) :
    ∃ k, k < 71 ∧ d.Fine k ∧ d.faulty (d.clock + k) = true ∧
      (∃ after, fishLoad drive ram cut.healed = (.ok, cutTree t0 t1 k, after)) ∧
      (cutTree t0 t1 k = t0 ↔ k = 0 ∨ (∀ j, j < 512 * (k - 1) → image t1.nodes j = image t0.nodes j) ∧
        loadCurrent t0.nodes t1.current.toUInt32.toNat = t0.current) ∧
      (cutTree t0 t1 k = t1 ↔ t0 = t1 ∨ 0 < k ∧
        ∀ j, 512 * (k - 1) ≤ j → j < nodeBytes → image t0.nodes j = image t1.nodes j) := by
  obtain ⟨k, inside, fine, fault, loaded⟩ :=
    reached0.valid.toSound.load_cut reached1.valid.toSound whole failed ram
  refine ⟨k, inside, fine, fault, loaded, ?_⟩
  cases k with
  | zero => exact ⟨⟨fun _ => .inl rfl, fun _ => rfl⟩, ⟨.inl, fun same => same.resolve_right fun late => by omega⟩⟩
  | succ n =>
    have nodes0 : joined (image t1.nodes) t0.nodes n = t0.nodes ↔ ∀ j, j < 512 * n → image t1.nodes j = image t0.nodes j :=
      (joined_eq_iff (by omega)).trans ⟨fun same => same.1, fun same => ⟨same, fun _ _ _ => rfl⟩⟩
    have nodes1 : joined (image t1.nodes) t0.nodes n = t1.nodes ↔
        ∀ j, 512 * n ≤ j → j < nodeBytes → image t0.nodes j = image t1.nodes j :=
      (joined_eq_iff (by omega)).trans ⟨fun same => same.2, fun same => ⟨fun _ _ => rfl, same⟩⟩
    constructor
    · rw [Fish.ext_iff, cutTree]
      constructor
      · rintro ⟨nodes, current⟩
        change joined (image t1.nodes) t0.nodes n = t0.nodes at nodes
        change loadCurrent (joined (image t1.nodes) t0.nodes n) _ = _ at current
        rw [nodes] at current
        exact .inr ⟨nodes0.mp nodes, current⟩
      · intro same
        obtain ⟨front, current⟩ := same.resolve_left (Nat.succ_ne_zero n)
        have nodes := nodes0.mpr front
        exact ⟨nodes, by simp only [nodes, current]⟩
    · rw [Fish.ext_iff, cutTree]
      constructor
      · rintro ⟨nodes, _⟩
        exact .inr ⟨Nat.succ_pos n, nodes1.mp nodes⟩
      · intro same
        have back : ∀ j, 512 * n ≤ j → j < nodeBytes → image t0.nodes j = image t1.nodes j := by
          rcases same with rfl | ⟨_, back⟩
          · exact fun _ _ _ => rfl
          · exact back
        have nodes := nodes1.mpr back
        exact ⟨nodes, by simp only [nodes, loadCurrent_saved reached1.valid.toSound]⟩

def twoFiles : List FishCall := [.create ⟨[97], by decide⟩, .create ⟨[98], by decide⟩]

/-- A blank drive whose transfer number 74 fails. -/
def Drive.brittle : Drive := { Drive.blank with faulty := fun t => t == 74 }

private theorem brittle_whole : fishSave drive fishInit Drive.brittle = (.ok, Drive.brittle.saved fishInit 71) :=
  fishSave_fine rfl fun i before => by
    change (0 + i == 74) = false
    simp
    omega

private theorem brittle_cut (t : Fish) : fishSave drive t (Drive.brittle.saved fishInit 71) =
    (.io, ((Drive.brittle.saved fishInit 71).saved t 3).tick) :=
  fishSave_fault rfl (fun i before => by change (71 + i == 74) = false; simp; omega) (by decide) rfl

theorem fish_load_after_cut_save_brittle :
    ∃ t1 k after, runCalls fishInit twoFiles = .ok t1 ∧ k < 71 ∧
      fishLoad drive fishInit ((Drive.brittle.saved fishInit 71).saved t1 3).tick.healed =
        (.ok, cutTree fishInit t1 k, after) := by
  obtain ⟨t1, ran, _⟩ := run_valid twoFiles fishInit_valid
  have empty : Reached fishInit := ⟨[], rfl⟩
  have reached : Reached t1 := ⟨twoFiles, ran⟩
  obtain ⟨k, inside, _, _, ⟨after, loaded⟩, _⟩ :=
    fish_load_after_cut_save empty reached brittle_whole (brittle_cut t1) fishInit
  exact ⟨t1, k, after, ran, inside, loaded⟩

/-- The empty tree was saved, the save of `a` and `b` was cut, and the load answers
`FISH_OK` with `a` alone. -/
theorem cut_save_mixes : ¬ ∀ (t0 t1 : Fish) (before d cut : Drive) (ram : Fish), Reached t0 → Reached t1 →
    fishSave drive t0 before = (.ok, d) → fishSave drive t1 d = (.io, cut) →
    (fishLoad drive ram cut.healed).1.value < 0 ∨ (fishLoad drive ram cut.healed).2.1 = t0 ∨
      (fishLoad drive ram cut.healed).2.1 = t1 := by
  intro all
  obtain ⟨t1, ran, valid⟩ := run_valid twoFiles fishInit_valid
  -- The two bytes are the flags of nodes 1 and 2.
  have flags : image t1.nodes 592 = 1 ∧ image t1.nodes 1152 = 1 := by
    have both : (runCalls fishInit twoFiles).toOption.map (fun s => (image s.nodes 592, image s.nodes 1152)) =
        some (1, 1) := rfl
    rw [ran] at both
    exact Prod.mk.inj (Option.some.inj both)
  obtain ⟨k, inside, _, fault, after, loaded⟩ :=
    fishInit_valid.toSound.load_cut valid.toSound brittle_whole (brittle_cut t1) fishInit
  have third : k = 3 := by
    change (71 + k == 74) = true at fault
    have := beq_iff_eq.mp fault
    omega
  subst third
  have outcome := all fishInit t1 _ _ _ fishInit ⟨[], rfl⟩ ⟨twoFiles, ran⟩ brittle_whole (brittle_cut t1)
  rw [loaded] at outcome
  rcases outcome with negative | old | new
  · exact (FishCode.value_neg_iff .ok).mp negative rfl
  · have same := ((joined_eq_iff (by decide)).mp (congrArg Fish.nodes old)).1 592 (by decide)
    exact absurd (flags.1.symm.trans same) (by decide)
  · have same := ((joined_eq_iff (by decide)).mp (congrArg Fish.nodes new)).2 1152 (by decide) (by decide)
    exact absurd (same.trans flags.2) (by decide)

end CutSave

end Seaweed
