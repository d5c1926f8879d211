import Seaweed.FileTree
import Seaweed.Proofs.FishRuns

/-! The file tree that a valid node array stands for, and what each change of the
array does to it. -/

namespace Seaweed
open Library

variable {s : Fish} {d i : Fin fishMaxNodes} {p : Path} {name : CString}

section Names

theorem signedChar_printable (c : UInt8) : 32 < signedChar c ↔ 33 ≤ c ∧ c ≤ 127 := by
  have value : signedChar c = c.toBitVec.toInt := rfl
  rw [value, BitVec.toInt_eq_toNat_cond, UInt8.le_iff_toNat_le, UInt8.le_iff_toNat_le]
  have bound := c.toBitVec.isLt
  have low : (33 : UInt8).toNat = 33 := rfl
  have high : (127 : UInt8).toNat = 127 := rfl
  rw [low, high, ← UInt8.toNat_toBitVec]
  split <;> omega

theorem validChars_iff (start : ℕ) (chars : List UInt8) :
    validChars start chars = true ↔
      (chars ≠ [] → start + chars.length ≤ 31) ∧ ∀ c ∈ chars, c ≠ 47 ∧ 32 < signedChar c := by
  refine ⟨validChars_spec start chars, ?_⟩
  rintro ⟨short, good⟩
  induction chars generalizing start with
  | nil => rfl
  | cons c rest ih =>
    have length := short (List.cons_ne_nil c rest)
    have first := good c (by simp)
    simp only [List.length_cons] at length
    have position : ¬ fishNameMax - 1 ≤ start := by
      have : fishNameMax - 1 = 31 := rfl
      omega
    have letter : ¬ (c = 47 ∨ signedChar c ≤ 32) := by
      rintro (slash | control)
      · exact first.1 slash
      · omega
    rw [validChars, if_neg position, if_neg letter]
    exact ih (start + 1) (fun _ => by omega) fun b member => good b (by simp [member])

/-- `valid_name` accepts the names an entry may carry. -/
theorem validName_iff (name : CString) : validName name = true ↔ Nameable name := by
  constructor
  · intro valid
    obtain ⟨positive, short, good, one, two⟩ := validName_spec valid
    refine ⟨⟨positive, short⟩, fun c member => ?_, one, two⟩
    obtain ⟨slash, control⟩ := good c member
    obtain ⟨low, high⟩ := (signedChar_printable c).mp control
    exact ⟨low, high, slash⟩
  · rintro ⟨⟨positive, short⟩, good, one, two⟩
    have nonempty : name.chars ≠ [] := List.length_pos_iff.mp positive
    have chars : validChars 0 name.chars = true := by
      refine (validChars_iff 0 name.chars).mpr ⟨fun _ => by omega, fun c member => ?_⟩
      obtain ⟨low, high, slash⟩ := good c member
      exact ⟨slash, (signedChar_printable c).mpr ⟨low, high⟩⟩
    simp [validName, nonempty, chars, one, two]

end Names

def Fish.kind (s : Fish) (i : Fin fishMaxNodes) : Content :=
  if s.Dir i then .dir else .file (s.nodes i).content

theorem Fish.kind_dir (dir : s.Dir i) : s.kind i = .dir := if_pos dir

theorem Fish.kind_file (file : ¬ s.Dir i) : s.kind i = .file (s.nodes i).content := if_neg file

theorem Fish.kind_eq_dir : s.kind i = .dir ↔ s.Dir i := by
  unfold Fish.kind
  split <;> simp_all

noncomputable def Fish.entries (s : Fish) (p : Path) : Option Content := (s.tree.locate 0 p).map s.kind

open Classical in
noncomputable def Fish.cwdPath (s : Fish) : Path :=
  if found : ∃ d, s.current = index d then s.tree.pathOf 0 found.choose else []

theorem Sound.entries_eq_some (sound : Sound s) {content : Content} :
    s.entries p = some content ↔ ∃ i, s.tree.Path 0 p i ∧ s.kind i = content := by
  simp only [Fish.entries, Option.map_eq_some_iff, ParentTree.locate_eq_some sound.rooted]

theorem Fish.entries_ne_none : s.entries p ≠ none ↔ ∃ i, s.tree.Path 0 p i := by
  simp [Fish.entries, ParentTree.locate_eq_none]

theorem Sound.cwdPath_eq (sound : Sound s) (here : s.current = index d) (path : s.tree.Path 0 p d) :
    s.cwdPath = p := by
  have found : ∃ d, s.current = index d := ⟨d, here⟩
  rw [Fish.cwdPath, dif_pos found]
  obtain rfl := index_injective (here.symm.trans found.choose_spec)
  exact ParentTree.pathOf_eq sound.rooted path

theorem Sound.cwd_path (sound : Sound s) :
    ∃ d, s.current = index d ∧ s.Used d ∧ s.Dir d ∧ s.tree.Path 0 s.cwdPath d := by
  obtain ⟨d, here, used, dir⟩ := sound.cwd
  obtain ⟨p, path⟩ := sound.rooted.path_exists used
  exact ⟨d, here, used, dir, by rwa [sound.cwdPath_eq here path]⟩

section Capacity

theorem Sound.occupied_eq (sound : Sound s) :
    occupied s.entries = s.tree.pathOf 0 '' {i | i ≠ 0 ∧ s.Used i} := by
  ext p
  constructor
  · rintro ⟨nonempty, holds⟩
    obtain ⟨i, path⟩ := Fish.entries_ne_none.mp holds
    refine ⟨i, ⟨?_, path.live sound.rooted⟩, ParentTree.pathOf_eq sound.rooted path⟩
    rintro rfl
    exact nonempty (path.root_eq_nil sound.rooted)
  · rintro ⟨i, ⟨inner, used⟩, rfl⟩
    have path := sound.rooted.pathOf_path used
    refine ⟨?_, Fish.entries_ne_none.mpr ⟨i, path⟩⟩
    intro empty
    rw [empty] at path
    exact inner (path.inj sound.rooted .root)

theorem Sound.occupied_ncard (sound : Sound s) :
    (occupied s.entries).ncard = {i | i ≠ 0 ∧ s.Used i}.ncard := by
  rw [sound.occupied_eq]
  apply Set.InjOn.ncard_image
  intro i member j member' same
  have path := sound.rooted.pathOf_path member.2
  rw [same] at path
  exact path.inj sound.rooted (sound.rooted.pathOf_path member'.2)

theorem inner_ncard : {i : Fin fishMaxNodes | i ≠ 0}.ncard = 63 := by
  rw [Set.ncard_eq_toFinset_card']
  decide

theorem Sound.occupied_le (sound : Sound s) : (occupied s.entries).ncard ≤ 63 := by
  have bound : {i | i ≠ 0 ∧ s.Used i}.ncard ≤ {i : Fin fishMaxNodes | i ≠ 0}.ncard :=
    Set.ncard_le_ncard fun i member => member.1
  rwa [inner_ncard, ← sound.occupied_ncard] at bound

/-- The tree is full when no slot besides the root's is free. -/
theorem Sound.occupied_full (sound : Sound s) :
    (occupied s.entries).ncard = 63 ↔ ∀ i, i ≠ 0 → s.Used i := by
  rw [sound.occupied_ncard]
  constructor
  · intro full i inner
    have all : {i | i ≠ 0 ∧ s.Used i} = {i | i ≠ 0} :=
      Set.eq_of_subset_of_ncard_le (fun i member => member.1) (by rw [full, inner_ncard])
    have member : i ∈ {i | i ≠ 0 ∧ s.Used i} := by rw [all]; exact inner
    exact member.2
  · intro used
    have all : {i | i ≠ 0 ∧ s.Used i} = {i | i ≠ 0} :=
      Set.ext fun i => ⟨fun member => member.1, fun inner => ⟨inner, used i inner⟩⟩
    rw [all, inner_ncard]

end Capacity

noncomputable def Sound.view (sound : Sound s) : FileTree where
  entries := s.entries
  cwd := s.cwdPath
  top := sound.entries_eq_some.mpr ⟨0, .root, Fish.kind_dir sound.root.2.1⟩
  closed := by
    intro name p holds
    obtain ⟨i, path⟩ := Fish.entries_ne_none.mp holds
    generalize labels : name :: p = q at path
    cases path with
    | root => cases labels
    | @child p' d i above live parent =>
      obtain ⟨rfl, rfl⟩ := List.cons.inj labels
      have under := Fish.tree_parent.mp parent
      have inner := sound.inner under
      obtain ⟨e, under', _, dir⟩ := sound.linked i inner live
      obtain rfl := under'.unique under
      exact ⟨sound.entries_eq_some.mpr ⟨e, above, Fish.kind_dir dir⟩,
        (validName_iff _).mp (sound.named i inner live).2⟩
  here := by
    obtain ⟨d, _, _, dir, path⟩ := sound.cwd_path
    exact sound.entries_eq_some.mpr ⟨d, path, Fish.kind_dir dir⟩
  finite := by
    rw [sound.occupied_eq]
    exact (Set.toFinite _).image _
  capacity := sound.occupied_le

@[simp] theorem Sound.view_entries (sound : Sound s) : sound.view.entries = s.entries := by simp only [Sound.view]

@[simp] theorem Sound.view_cwd (sound : Sound s) : sound.view.cwd = s.cwdPath := by simp only [Sound.view]

theorem Sound.child_path (sound : Sound s) (here : s.current = index d) (found : s.child d name = some i) :
    s.tree.Path 0 (name :: s.cwdPath) i := by
  obtain ⟨used, under, rfl⟩ := Fish.child_some found
  obtain ⟨e, here', _, _, path⟩ := sound.cwd_path
  obtain rfl := index_injective (here.symm.trans here')
  exact .child path used (Fish.tree_parent.mpr under)

/-- `find_child` in the current directory is a lookup in the file tree. -/
theorem Sound.look_eq (sound : Sound s) (here : s.current = index d) (name : CString) :
    sound.view.look name = (s.child d name).map s.kind := by
  rw [FileTree.look, sound.view_entries, sound.view_cwd]
  cases found : s.child d name with
  | some i =>
    rw [Option.map_some]
    exact sound.entries_eq_some.mpr ⟨i, sound.child_path here found, rfl⟩
  | none =>
    rw [Option.map_none]
    by_contra holds
    obtain ⟨i, path⟩ := Fish.entries_ne_none.mp holds
    generalize labels : name :: s.cwdPath = q at path
    cases path with
    | root => cases labels
    | @child p' e i above live parent =>
      obtain ⟨rfl, rfl⟩ := List.cons.inj labels
      obtain ⟨e', here', _, _, path⟩ := sound.cwd_path
      obtain rfl := index_injective (here.symm.trans here')
      obtain rfl := above.inj sound.rooted path
      exact Fish.child_none found i ⟨live, Fish.tree_parent.mp parent, rfl⟩

section Changes

variable {after : Fish}

theorem Sound.eq_view (sound : Sound s) {t : FileTree} (entries : t.entries = s.entries)
    (cwd : t.cwd = s.cwdPath) : t = sound.view := by
  apply FileTree.ext
  · rw [entries, sound.view_entries]
  · rw [cwd, sound.view_cwd]

theorem Sound.view_move (sound : Sound s) (dir : s.Dir d) (path : s.tree.Path 0 p d)
    (after : Sound { s with current := index d }) :
    sound.view.enter p (sound.entries_eq_some.mpr ⟨d, path, Fish.kind_dir dir⟩) = after.view :=
  after.eq_view rfl (after.cwdPath_eq rfl path).symm

theorem Fish.kind_same {j : Fin fishMaxNodes} (same : after.nodes j = s.nodes j) : after.kind j = s.kind j := by
  have dirs : after.Dir j ↔ s.Dir j := by rw [Fish.Dir, same, Fish.Dir]
  by_cases dir : s.Dir j
  · rw [Fish.kind_dir dir, Fish.kind_dir (dirs.mpr dir)]
  · rw [Fish.kind_file dir, Fish.kind_file (fun dir' => dir (dirs.mp dir')), same]

theorem Sound.entries_add (sound : Sound s) (sound' : Sound after) (leaf : s.tree.Leaf after.tree i d)
    (inner : i ≠ 0) (same : ∀ j, j ≠ i → after.nodes j = s.nodes j) (above : s.tree.Path 0 p d) :
    after.entries = Function.update s.entries ((after.nodes i).called :: p) (some (after.kind i)) := by
  funext q
  rw [Fish.entries, leaf.locate_add sound.rooted sound'.rooted (Ne.symm inner) above, Fish.tree_label]
  by_cases place : q = (after.nodes i).called :: p
  · subst place
    rw [if_pos rfl, Function.update_self, Option.map_some]
  · rw [if_neg place, Function.update_of_ne place, Fish.entries]
    refine Option.map_congr fun j located => Fish.kind_same (same j ?_)
    rintro rfl
    exact leaf.fresh (((ParentTree.locate_eq_some sound.rooted).mp located).live sound.rooted)

theorem Sound.entries_cut (sound : Sound s) (sound' : Sound after) (leaf : after.tree.Leaf s.tree i d)
    (inner : i ≠ 0) (same : ∀ j, j ≠ i → after.nodes j = s.nodes j) (above : s.tree.Path 0 p d) :
    after.entries = Function.update s.entries ((s.nodes i).called :: p) none := by
  funext q
  rw [Fish.entries, leaf.locate_cut sound.rooted sound'.rooted (Ne.symm inner) above, Fish.tree_label]
  by_cases place : q = (s.nodes i).called :: p
  · subst place
    rw [if_pos rfl, Function.update_self, Option.map_none]
  · rw [if_neg place, Function.update_of_ne place, Fish.entries]
    refine Option.map_congr fun j located => Fish.kind_same (same j ?_)
    rintro rfl
    have path := (ParentTree.locate_eq_some sound.rooted).mp located
    exact place (path.unique sound.rooted (.child above leaf.live leaf.parent))

theorem Sound.entries_fill (sound : Sound s) {node : Node} (links : (s.set i node).tree = s.tree)
    (path : s.tree.Path 0 p i) :
    (s.set i node).entries = Function.update s.entries p (some ((s.set i node).kind i)) := by
  funext q
  rw [Fish.entries, links]
  by_cases place : q = p
  · subst place
    rw [(ParentTree.locate_eq_some sound.rooted).mpr path, Function.update_self, Option.map_some]
  · rw [Function.update_of_ne place, Fish.entries]
    refine Option.map_congr fun j located => Fish.kind_same (Fish.set_other ?_)
    rintro rfl
    exact place (((ParentTree.locate_eq_some sound.rooted).mp located).unique sound.rooted path)

end Changes

end Seaweed
