import Seaweed.Proofs.FishStorage

/-! How far an image that `fish_load` accepts can be trusted. It checks the superblock,
the root's two flags and the current directory; `recordsHold` is what it leaves out. -/

namespace Seaweed
open Library

section Records

variable (nodes : Fin fishMaxNodes → Node)

/-- Whether at most `room` steps along the parent links lead from a slot to slot 0. -/
def climbsToRoot : ℕ → Fin fishMaxNodes → Bool
  | 0, i => decide (i = 0)
  | room + 1, i =>
    if i = 0 then true
    else
      match slot (nodes i).parent with
      | .ok d => climbsToRoot room d
      | .error _ => false

def parentHolds (i : Fin fishMaxNodes) : Bool :=
  match slot (nodes i).parent with
  | .ok d => decide ((nodes d).used ≠ 0) && decide ((nodes d).isDir ≠ 0)
  | .error _ => false

def nameHolds (i : Fin fishMaxNodes) : Bool := decide (0 ∈ (nodes i).name.bytes) && validName (nodes i).called

def siblingsHold (i : Fin fishMaxNodes) : Bool :=
  (List.finRange fishMaxNodes).all fun j =>
    decide (j = i) || decide ((nodes j).used = 0) || decide ((nodes j).parent ≠ (nodes i).parent) ||
      decide ((nodes j).called ≠ (nodes i).called)

def recordHolds (i : Fin fishMaxNodes) : Bool :=
  decide ((nodes i).size.toNat ≤ fishFileMax) &&
    if i = 0 then decide ((nodes i).parent = -1)
    else nameHolds nodes i && parentHolds nodes i && climbsToRoot nodes fishMaxNodes i && siblingsHold nodes i

/-- Every used record passes the checks that a load does not make. -/
def recordsHold : Bool :=
  (List.finRange fishMaxNodes).all fun i => decide ((nodes i).used = 0) || recordHolds nodes i

end Records

section Checks

variable {s : Fish} {i d : Fin fishMaxNodes} {p : List CString}

theorem parentHolds_iff : parentHolds s.nodes i = true ↔ ∃ d, s.Under i d ∧ s.Used d ∧ s.Dir d := by
  unfold parentHolds
  cases found : slot (s.nodes i).parent with
  | error fault =>
    refine ⟨fun no => absurd no Bool.false_ne_true, ?_⟩
    rintro ⟨d, under, _⟩
    cases found.symm.trans (slot_eq_ok.mpr under)
  | ok d =>
    have under : s.Under i d := slot_eq_ok.mp found
    simp only [Bool.and_eq_true, decide_eq_true_eq]
    refine ⟨fun flags => ⟨d, under, flags⟩, ?_⟩
    rintro ⟨e, under', flags⟩
    obtain rfl := under.unique under'
    exact flags

theorem nameHolds_iff :
    nameHolds s.nodes i = true ↔ 0 ∈ (s.nodes i).name.bytes ∧ validName (s.nodes i).called = true := by
  simp only [nameHolds, Bool.and_eq_true, decide_eq_true_eq]

theorem siblingsHold_iff : siblingsHold s.nodes i = true ↔ ∀ j, s.Used j →
    (s.nodes j).parent = (s.nodes i).parent → (s.nodes j).called = (s.nodes i).called → j = i := by
  simp only [siblingsHold, List.all_eq_true, Bool.or_eq_true, decide_eq_true_eq, or_assoc]
  constructor
  · intro all j used parents names
    rcases all j (List.mem_finRange j) with same | unused | parents' | names'
    · exact same
    · exact absurd unused used
    · exact absurd parents parents'
    · exact absurd names names'
  · intro unique j _
    by_contra differ
    simp only [not_or, not_not] at differ
    exact differ.1 (unique j differ.2.1 differ.2.2.1 differ.2.2.2)

theorem climbsToRoot_reach (room : ℕ) (climbs : climbsToRoot s.nodes room i = true) :
    Relation.ReflTransGen s.Under i 0 := by
  induction room generalizing i with
  | zero =>
    obtain rfl : i = 0 := of_decide_eq_true climbs
    exact .refl
  | succ room ih =>
    rw [climbsToRoot] at climbs
    split at climbs
    next top =>
      obtain rfl := top
      exact .refl
    next =>
      split at climbs
      next d found => exact .head (slot_eq_ok.mp found) (ih climbs)
      next => cases climbs

theorem Sound.climbsToRoot_path (path : s.tree.Path 0 p i) (room : ℕ) (enough : p.length ≤ room) :
    climbsToRoot s.nodes room i = true := by
  induction path generalizing room with
  | root => cases room <;> simp [climbsToRoot]
  | @child p d i above live parent ih =>
    cases room with
    | zero => simp at enough
    | succ room =>
      have found : slot (s.nodes i).parent = .ok d := slot_eq_ok.mpr (Fish.tree_parent.mp parent)
      have higher := ih room (by simpa using enough)
      rw [climbsToRoot, found]
      by_cases top : i = 0
      · rw [if_pos top]
      · rw [if_neg top]
        exact higher

theorem recordsHold_iff : recordsHold s.nodes = true ↔ ∀ i, s.Used i → recordHolds s.nodes i = true := by
  simp only [recordsHold, List.all_eq_true, Bool.or_eq_true, decide_eq_true_eq]
  constructor
  · intro all i used
    exact (all i (List.mem_finRange i)).resolve_left used
  · intro all i _
    by_cases unused : (s.nodes i).used = 0
    · exact .inl unused
    · exact .inr (all i unused)

theorem recordHolds_root : recordHolds s.nodes 0 = true ↔
    (s.nodes 0).size.toNat ≤ fishFileMax ∧ (s.nodes 0).parent = -1 := by
  simp only [recordHolds, if_true, Bool.and_eq_true, decide_eq_true_eq]

theorem recordHolds_inner (inner : i ≠ 0) : recordHolds s.nodes i = true ↔
    (s.nodes i).size.toNat ≤ fishFileMax ∧ nameHolds s.nodes i = true ∧ parentHolds s.nodes i = true ∧
      climbsToRoot s.nodes fishMaxNodes i = true ∧ siblingsHold s.nodes i = true := by
  simp only [recordHolds, if_neg inner, Bool.and_eq_true, decide_eq_true_eq, and_assoc]

/-- With the checks of `fish_load` the records make a sound tree, and no less does. -/
theorem sound_iff_recordsHold (root : s.Used 0 ∧ s.Dir 0) (cwd : ∃ d, s.current = index d ∧ s.Used d ∧ s.Dir d) :
    Sound s ↔ recordsHold s.nodes = true := by
  rw [recordsHold_iff]
  constructor
  · intro sound i used
    by_cases top : i = 0
    · subst top
      exact recordHolds_root.mpr ⟨sound.sized 0 used, sound.root.2.2⟩
    · obtain ⟨p, path⟩ := sound.rooted.path_exists used
      have short := path.length_lt_card sound.rooted
      rw [Fintype.card_fin] at short
      refine (recordHolds_inner top).mpr ⟨sound.sized i used, nameHolds_iff.mpr (sound.named i top used),
        parentHolds_iff.mpr (sound.linked i top used), Sound.climbsToRoot_path path _ (Nat.le_of_lt short), ?_⟩
      exact siblingsHold_iff.mpr fun j used' => sound.unique j i used' used
  · intro holds
    have top := recordHolds_root.mp (holds 0 root.1)
    refine ⟨⟨root.1, root.2, top.2⟩, ?_, ?_, ?_, ?_, ?_, cwd⟩
    · intro i inner used
      exact nameHolds_iff.mp ((recordHolds_inner inner).mp (holds i used)).2.1
    · intro i inner used
      exact parentHolds_iff.mp ((recordHolds_inner inner).mp (holds i used)).2.2.1
    · intro i used
      by_cases inner : i = 0
      · rw [inner]
      · exact climbsToRoot_reach _ ((recordHolds_inner inner).mp (holds i used)).2.2.2.1
    · intro i j used used' parents names
      by_cases inner : j = 0
      · -- The root's parent is no slot, so nothing else has it.
        subst inner
        by_contra other
        obtain ⟨d, under, _⟩ := parentHolds_iff.mp ((recordHolds_inner other).mp (holds i used)).2.2.1
        exact index_ne_top d (under.symm.trans (parents.trans top.2))
      · exact siblingsHold_iff.mp ((recordHolds_inner inner).mp (holds j used')).2.2.2.2 i used parents names
    · intro i used
      by_cases inner : i = 0
      · rw [inner]
        exact top.1
      · exact ((recordHolds_inner inner).mp (holds i used)).1

end Checks

section Loads

variable {d : Drive} {nodes : Fin fishMaxNodes → Node}

/-- The checks that `fish_load` makes before it answers `FISH_OK`. -/
def Drive.Accepted (d : Drive) : Prop :=
  d.present = true ∧ d.Fine 71 ∧ d.header.Recognised ∧
    (nodesAt d.area 0).used ≠ 0 ∧ (nodesAt d.area 0).isDir ≠ 0

def Drive.loaded (d : Drive) : Fish := ⟨nodesAt d.area, loadCurrent (nodesAt d.area) d.header.current⟩

theorem fishLoad_ok_iff (ram loaded : Fish) (after : Drive) :
    fishLoad drive ram d = (.ok, loaded, after) ↔ d.Accepted ∧ loaded = d.loaded ∧ after = d.ticks 71 := by
  constructor
  · intro ok
    rcases fishLoad_cases ram d with ⟨_, done⟩ | ⟨_, _, done⟩ | ⟨_, _, _, done⟩ | ⟨_, _, n, _, _, _, done⟩ |
      ⟨present, known, fine, done⟩
    · cases done.symm.trans ok
    · cases done.symm.trans ok
    · cases done.symm.trans ok
    · cases done.symm.trans ok
    · rw [done] at ok
      split at ok
      next => cases ok
      next root =>
        cases ok
        exact ⟨⟨present, fine, known, not_or.mp root⟩, rfl, rfl⟩
  · rintro ⟨⟨present, fine, known, root⟩, rfl, rfl⟩
    rcases fishLoad_cases ram d with ⟨absent, _⟩ | ⟨_, fault, _⟩ | ⟨_, _, unknown, _⟩ | ⟨_, _, n, inside, _, fault, _⟩ |
      ⟨_, _, _, done⟩
    · exact absurd (absent.symm.trans present) (by decide)
    · exact absurd ((fine 0 (by decide)).symm.trans fault) (by decide)
    · exact absurd known unknown
    · exact absurd ((fine (n + 1) (by omega)).symm.trans fault) (by decide)
    · rw [done, if_neg (not_or.mpr root)]
      rfl

/-- The saved directory is the one thing that a load repairs. -/
theorem loadCurrent_dir (root : (nodes 0).used ≠ 0 ∧ (nodes 0).isDir ≠ 0) (saved : ℕ) :
    ∃ d, loadCurrent nodes saved = index d ∧ (nodes d).used ≠ 0 ∧ (nodes d).isDir ≠ 0 := by
  unfold loadCurrent
  split
  next inside =>
    split
    next => exact ⟨0, rfl, root⟩
    next flags => exact ⟨⟨saved, inside⟩, rfl, not_or.mp flags⟩
  next => exact ⟨0, rfl, root⟩

theorem Drive.Accepted.sound_iff (accepted : d.Accepted) : Sound d.loaded ↔ recordsHold (nodesAt d.area) = true :=
  sound_iff_recordsHold (s := d.loaded) accepted.2.2.2 (loadCurrent_dir accepted.2.2.2 d.header.current)

/-- An accepted image is a sound tree, and from it on no call leaves `nodes`, `name` or
`data`, or hands out a size beyond `data`. -/
def TrustedAfterLoad (d : Drive) : Prop :=
  ∀ ram loaded after, fishLoad drive ram d = (.ok, loaded, after) →
    Sound loaded ∧ ∀ calls, ∃ last, runCalls loaded calls = .ok last ∧
      ∀ name, ∃ result, fishRead last name = .ok result ∧
        ∀ size data, result = some (size, data) → size.toNat ≤ fishFileMax

/-- An image can be trusted exactly when it is refused or all its used records pass the
checks that `fish_load` leaves out. -/
theorem accepted_image_trusted_iff (d : Drive) :
    TrustedAfterLoad d ↔ (d.Accepted → recordsHold (nodesAt d.area) = true) := by
  constructor
  · intro trusted accepted
    exact accepted.sound_iff.mp (trusted fishInit d.loaded _ ((fishLoad_ok_iff _ _ _).mpr ⟨accepted, rfl, rfl⟩)).1
  · intro holds ram loaded after ok
    obtain ⟨accepted, rfl, _⟩ := (fishLoad_ok_iff ram loaded after).mp ok
    have sound := accepted.sound_iff.mpr (holds accepted)
    refine ⟨sound, fun calls => ?_⟩
    obtain ⟨last, ran, sound'⟩ := run_sound calls sound
    exact ⟨last, ran, fun name => sound'.fishRead_inside name⟩

/-- A file `a` at the root that says it has 4 GiB less one byte. -/
def hostile : Fish :=
  fishInit.set 1 { Node.zero with name := Function.update Node.zero.name 0 97, used := 1, size := 0xFFFFFFFF }

/-- A load accepts that file, and appending two bytes to it then stores outside `data`. -/
theorem hostile_image_accepted :
    ¬ TrustedAfterLoad (Drive.blank.saved hostile 71) ∧
      (∃ after, fishLoad drive fishInit (Drive.blank.saved hostile 71) = (.ok, hostile, after)) ∧
      fishAppend hostile ⟨[97], by decide⟩ ⟨[104, 105], by decide⟩ = .error .data := by
  have root : ¬ ((hostile.nodes 0).used = 0 ∨ (hostile.nodes 0).isDir = 0) := by decide
  have loaded := (Drive.saved_healthy Drive.blank_healthy).load_image Drive.saved_header Drive.saved_whole root fishInit
  have same : (⟨hostile.nodes, loadCurrent hostile.nodes hostile.current.toUInt32.toNat⟩ : Fish) = hostile :=
    Fish.ext rfl (by decide)
  rw [same] at loaded
  refine ⟨fun trusted => ?_, ⟨_, loaded⟩, rfl⟩
  have sized := (trusted _ _ _ loaded).1.sized 1 (by decide)
  exact absurd sized (by decide)

end Loads

end Seaweed
