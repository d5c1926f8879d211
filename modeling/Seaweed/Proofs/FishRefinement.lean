import Seaweed.Proofs.FishView

/-! Fish computes the operations of the file tree: the same answers in the same order
of checks, and next states that stand for the next trees. -/

namespace Seaweed
open Library

variable {s : Fish} {d i : Fin fishMaxNodes} {name : CString}

/-- A call answers as the reference does, and its state stands for the reference's tree. -/
def Refines (result : Checked (FishCode × Fish)) (expected : FishCode × FileTree) : Prop :=
  ∃ code after, ∃ valid : Valid after, result = .ok (code, after) ∧ expected = (code, valid.toSound.view)

theorem Refines.same {result : Checked (FishCode × Fish)} (valid : Valid s) {code : FishCode}
    (done : result = .ok (code, s)) : Refines result (code, valid.toSound.view) :=
  ⟨code, s, valid, done, rfl⟩

section Adding

theorem Sound.look_none (sound : Sound s) (here : s.current = index d) (name : CString) :
    sound.view.look name = none ↔ s.child d name = none := by
  rw [sound.look_eq here]
  simp

/-- A node made in a free slot is the entry that the reference puts. -/
theorem Valid.made_put (valid : Valid s) (here : s.current = index d) {field : Buffer fishNameMax} {flag : Int32}
    {content : Content} (inner : i ≠ 0) (fresh : ¬ s.Used i) (accepted : validName name = true)
    (missing : s.child d name = none) (terminated : 0 ∈ field.bytes) (called : CString.ofBytes field.bytes = name)
    (kind : (s.set i ((s.nodes i).made field flag (index d))).kind i = content)
    (named : Nameable name) (safe : valid.toSound.view.look name ≠ some .dir)
    (room : valid.toSound.view.look name ≠ none ∨ valid.toSound.view.count < 63) :
    ∃ valid' : Valid (s.set i ((s.nodes i).made field flag (index d))),
      valid.toSound.view.put name content named safe room = valid'.toSound.view := by
  have valid' : Valid (s.set i ((s.nodes i).made field flag (index d))) :=
    Change.valid (.edit (.add here inner fresh accepted missing terminated called)) valid
  obtain ⟨e, here', used, dir, path⟩ := valid.toSound.cwd_path
  obtain rfl := index_injective (here.symm.trans here')
  have leaf : s.tree.Leaf _ i d := valid.toSound.made_leaf field flag fresh used
  refine ⟨valid', ?_⟩
  apply valid'.toSound.eq_view
  · have entries := valid.toSound.entries_add valid'.toSound leaf inner (fun j => Fish.set_other) path
    have label : ((s.set i ((s.nodes i).made field flag (index d))).nodes i).called = name := by
      rw [Fish.set_same]
      exact called
    rw [entries, kind, label]
    rw [FileTree.put_entries, Sound.view_entries, Sound.view_cwd]
  · rw [FileTree.put_cwd, Sound.view_cwd]
    exact (valid'.toSound.cwdPath_eq here (path.extend leaf.larger)).symm

theorem Valid.add_refines (valid : Valid s) (name : CString) (flag : Int32) (content : Content)
    (kind : ∀ i field parent, (s.set i ((s.nodes i).made field flag parent)).kind i = content) :
    Refines (do
      let (result, after) ← makeNode s name flag
      .ok (resultCode result, after)) (valid.toSound.view.add name content) := by
  obtain ⟨d, here, used, dir⟩ := valid.cwd
  have taken_iff := valid.toSound.look_none here name
  rcases valid.toSound.makeNode_cases here name flag with ⟨bad, done⟩ | ⟨good, taken, done⟩ |
    ⟨good, missing, full, done⟩ | ⟨good, missing, i, field, inner, fresh, terminated, called, done⟩
  · have unnamed : ¬ Nameable name := fun named => by simp [(validName_iff name).mpr named] at bad
    rw [FileTree.add, dif_neg unnamed, done]
    exact .same valid rfl
  · have looked : valid.toSound.view.look name ≠ none := fun none => taken (taken_iff.mp none)
    rw [FileTree.add, dif_pos ((validName_iff name).mp good), dif_pos looked, done]
    exact .same valid rfl
  · have looked : ¬ valid.toSound.view.look name ≠ none := fun some => some (taken_iff.mpr missing)
    have count : valid.toSound.view.count = 63 := by
      rw [FileTree.count, valid.toSound.view_entries]
      exact valid.toSound.occupied_full.mpr full
    rw [FileTree.add, dif_pos ((validName_iff name).mp good), dif_neg looked, dif_pos count, done]
    exact .same valid rfl
  · have looked : ¬ valid.toSound.view.look name ≠ none := fun some => some (taken_iff.mpr missing)
    have count : ¬ valid.toSound.view.count = 63 := by
      rw [FileTree.count, valid.toSound.view_entries]
      exact fun full => fresh (valid.toSound.occupied_full.mp full i inner)
    rw [FileTree.add, dif_pos ((validName_iff name).mp good), dif_neg looked, dif_neg count, done]
    obtain ⟨valid', same⟩ := valid.made_put here inner fresh good missing terminated called
      (kind i field (index d)) ((validName_iff name).mp good)
      (fun dir => looked (by simp [dir])) (.inr (lt_of_le_of_ne (FileTree.count_le _) count))
    exact ⟨.ok, _, valid', rfl, congrArg (Prod.mk _) same⟩

theorem Valid.fishMkdir_refines (valid : Valid s) (name : CString) :
    Refines (fishMkdir s name) (valid.toSound.view.mkdir name) :=
  valid.add_refines name 1 .dir fun i field parent => Fish.kind_dir (by
    rw [Fish.Dir, Fish.set_same]
    exact (by decide : (1 : Int32) ≠ 0))

theorem Valid.fishCreate_refines (valid : Valid s) (name : CString) :
    Refines (fishCreate s name) (valid.toSound.view.create name) :=
  valid.add_refines name 0 (.file []) fun i field parent => by
    have file : ¬ (s.set i ((s.nodes i).made field 0 parent)).Dir i := by
      rw [Fish.Dir, Fish.set_same]
      exact fun nonzero => nonzero rfl
    rw [Fish.kind_file file, Fish.set_same]
    rfl

end Adding

section Moving

theorem Valid.move_refines (valid : Valid s) {result : Checked (FishCode × Fish)} {p : Path}
    {dir : valid.toSound.view.entries p = some .dir} (path : s.tree.Path 0 p d)
    (done : result = .ok (.ok, { s with current := index d })) :
    Refines result (.ok, valid.toSound.view.enter p dir) := by
  obtain ⟨e, located, kind⟩ := valid.toSound.entries_eq_some.mp dir
  obtain rfl := located.inj valid.toSound.rooted path
  have isDir := Fish.kind_eq_dir.mp kind
  have valid' : Valid { s with current := index e } :=
    Change.valid (.move (path.live valid.toSound.rooted) isDir) valid
  exact ⟨.ok, _, valid', done, congrArg (Prod.mk _) (valid.toSound.view_move isDir path valid'.toSound)⟩

theorem Valid.fishChdir_refines (valid : Valid s) (name : CString) :
    Refines (fishChdir s name) (valid.toSound.view.chdir name) := by
  obtain ⟨d, here, used, isDir, path⟩ := valid.toSound.cwd_path
  have looked := valid.toSound.look_eq here name
  rcases valid.toSound.fishChdir_cases here name with ⟨chars, done⟩ | ⟨chars, done⟩ | ⟨chars, done⟩ |
    ⟨chars, ⟨rfl, done⟩ | ⟨e, under, done⟩⟩ | ⟨_, slash, dot, dots, outcome⟩
  · -- No entry has the empty name.
    have missing : s.child d name = none := by
      by_contra found
      have taken : valid.toSound.view.look name ≠ none := by simpa [looked] using found
      have named := FileTree.look_named taken
      simp [Nameable, chars] at named
    rw [missing, Option.map_none] at looked
    have result : valid.toSound.view.chdir name = (.noent, valid.toSound.view) := by
      rw [FileTree.chdir, if_neg (by simp [chars]), if_neg (by simp [chars]), if_neg (by simp [chars])]
      split
      · rfl
      · next found => simp [looked] at found
      · next found => simp [looked] at found
    rw [result]
    exact .same valid done
  · rw [FileTree.chdir, if_pos chars]
    exact valid.move_refines .root done
  · rw [FileTree.chdir, if_neg (by simp [chars]), if_pos chars]
    exact .same valid done
  · have top := path.root_eq_nil valid.toSound.rooted
    rw [FileTree.chdir, if_neg (by simp [chars]), if_neg (by simp [chars]), if_pos chars]
    refine valid.move_refines (d := 0) ?_ ?_
    · rw [Sound.view_cwd, top]
      exact .root
    · rw [done, ← here]
  · obtain ⟨q, labels, above⟩ := path.parent_cases valid.toSound.rooted (Fish.tree_parent.mpr under)
    rw [FileTree.chdir, if_neg (by simp [chars]), if_neg (by simp [chars]), if_pos chars]
    refine valid.move_refines (d := e) ?_ done
    rw [Sound.view_cwd, labels]
    exact above
  · rw [FileTree.chdir, if_neg slash, if_neg dot, if_neg dots]
    rcases outcome with ⟨missing, done⟩ | ⟨i, found, ⟨file, done⟩ | ⟨dir, done⟩⟩
    · rw [missing, Option.map_none] at looked
      split
      · exact .same valid done
      · next other => simp [looked] at other
      · next other => simp [looked] at other
    · rw [found, Option.map_some, Fish.kind_file file] at looked
      split
      · next other => simp [looked] at other
      · exact .same valid done
      · next other => simp [looked] at other
    · rw [found, Option.map_some, Fish.kind_dir dir] at looked
      split
      · next other => simp [looked] at other
      · next other => simp [looked] at other
      · refine valid.move_refines (d := i) ?_ done
        rw [Sound.view_cwd]
        exact valid.toSound.child_path here found

end Moving

section Removing

/-- The entries below a child are the slots that have it as their parent. -/
theorem Valid.below_iff (valid : Valid s) (here : s.current = index d) (found : s.child d name = some i) :
    (∀ inner, valid.toSound.view.entries (inner :: name :: valid.toSound.view.cwd) = none) ↔
      ∀ j, s.Used j → ¬ s.Under j i := by
  have child := valid.toSound.child_path here found
  rw [Sound.view_entries, Sound.view_cwd]
  constructor
  · intro empty j live' under'
    have path' := ParentTree.Path.child child live' (Fish.tree_parent.mpr under')
    exact Fish.entries_ne_none.mpr ⟨j, path'⟩ (empty _)
  · intro empty inner
    by_contra holds
    obtain ⟨j, path'⟩ := Fish.entries_ne_none.mp holds
    generalize labels : inner :: name :: s.cwdPath = q at path'
    cases path' with
    | root => cases labels
    | child above live' parent' =>
      obtain ⟨rfl, rfl⟩ := List.cons.inj labels
      obtain rfl := above.inj valid.toSound.rooted child
      exact empty _ live' (Fish.tree_parent.mp parent')

theorem Valid.removed_erase (valid : Valid s) (here : s.current = index d) (found : s.child d name = some i)
    (empty : ∀ j, s.Used j → ¬ s.Under j i)
    (bare : ∀ inner, valid.toSound.view.entries (inner :: name :: valid.toSound.view.cwd) = none) :
    ∃ valid' : Valid (s.set i { s.nodes i with used := 0 }),
      valid.toSound.view.erase name bare = valid'.toSound.view := by
  obtain ⟨e, here', _, _, path⟩ := valid.toSound.cwd_path
  obtain rfl := index_injective (here.symm.trans here')
  obtain ⟨live, under, rfl⟩ := Fish.child_some found
  have valid' : Valid (s.set i { s.nodes i with used := 0 }) :=
    Change.valid (.edit (.remove here live under empty)) valid
  have leaf := Fish.removed_leaf live under empty
  have inner := valid.toSound.inner under
  refine ⟨valid', ?_⟩
  apply valid'.toSound.eq_view
  · rw [valid.toSound.entries_cut valid'.toSound leaf inner (fun j => Fish.set_other) path]
    rw [FileTree.erase_entries, Sound.view_entries, Sound.view_cwd]
  · rw [FileTree.erase_cwd, Sound.view_cwd]
    refine (valid'.toSound.cwdPath_eq here ?_).symm
    refine ((leaf.path_iff (Ne.symm inner)).mp path).resolve_right ?_
    rintro ⟨rfl, _⟩
    exact valid.toSound.rooted.parent_ne live (Fish.tree_parent.mpr under) rfl

theorem Valid.fishRemove_refines (valid : Valid s) (name : CString) :
    Refines (fishRemove s name) (valid.toSound.view.remove name) := by
  obtain ⟨d, here, _, _⟩ := valid.cwd
  have missing_iff := valid.toSound.look_none here name
  rcases valid.toSound.fishRemove_cases here name with ⟨missing, done⟩ | ⟨i, found, outcome⟩
  · rw [FileTree.remove, if_pos (missing_iff.mpr missing)]
    exact .same valid done
  have looked : valid.toSound.view.look name ≠ none := fun none => by simp [missing_iff.mp none] at found
  have below := valid.below_iff here found
  rw [FileTree.remove, if_neg looked]
  rcases outcome with ⟨_, ⟨j, live, under⟩, done⟩ | ⟨empty, done⟩
  · rw [dif_neg fun none => below.mp none j live under]
    exact .same valid done
  · rw [dif_pos (below.mpr empty)]
    obtain ⟨valid', same⟩ := valid.removed_erase here found empty (below.mpr empty)
    exact ⟨.ok, _, valid', done, congrArg (Prod.mk _) same⟩

end Removing

section Contents

theorem Valid.filled_put (valid : Valid s) (here : s.current = index d) (found : s.child d name = some i)
    (file : ¬ s.Dir i) {data : Buffer fishFileMax} {size : UInt32} {text : List UInt8}
    (fits : size.toNat ≤ fishFileMax) (bytes : data.bytes.take size.toNat = text) (named : Nameable name)
    (safe : valid.toSound.view.look name ≠ some .dir)
    (room : valid.toSound.view.look name ≠ none ∨ valid.toSound.view.count < 63) :
    ∃ valid' : Valid (s.set i { s.nodes i with data := data, size := size }),
      valid.toSound.view.put name (.file text) named safe room = valid'.toSound.view := by
  have valid' : Valid (s.set i { s.nodes i with data := data, size := size }) :=
    Change.valid (.edit (.fill (Fish.child_some found).1 file fits)) valid
  have links := s.filled_tree i data size
  have file' : ¬ (s.set i { s.nodes i with data := data, size := size }).Dir i := by
    rw [Fish.Dir, Fish.set_same]
    exact file
  have kind : (s.set i { s.nodes i with data := data, size := size }).kind i = .file text := by
    rw [Fish.kind_file file', Fish.set_same]
    exact congrArg Content.file bytes
  refine ⟨valid', ?_⟩
  apply valid'.toSound.eq_view
  · rw [valid.toSound.entries_fill links (valid.toSound.child_path here found), kind]
    rw [FileTree.put_entries, Sound.view_entries, Sound.view_cwd]
  · obtain ⟨e, here', _, _, path⟩ := valid.toSound.cwd_path
    rw [FileTree.put_cwd, Sound.view_cwd]
    refine (valid'.toSound.cwdPath_eq here' ?_).symm
    rw [links]
    exact path

/-- What `fish_write` and `fish_append` have in common. -/
theorem Valid.edit_refines (valid : Valid s) (here : s.current = index d) (name : CString)
    (change : List UInt8 → List UInt8) {result : Checked (FishCode × Fish)}
    (outcome : EditOutcome s d name change result) :
    Refines result (valid.toSound.view.edit name change) := by
  have looked := valid.toSound.look_eq here name
  rcases outcome with ⟨missing, done⟩ | ⟨i, found, outcome⟩
  · rw [missing, Option.map_none] at looked
    unfold FileTree.edit
    split
    · exact .same valid done
    · next other => simp [looked] at other
    · next other => simp [looked] at other
  rw [found, Option.map_some] at looked
  by_cases dir : s.Dir i
  · rw [Fish.kind_dir dir] at looked
    have done : result = .ok (.isdir, s) := by
      rcases outcome with ⟨_, done⟩ | ⟨file, _⟩ | ⟨file, _⟩
      · exact done
      · exact absurd dir file
      · exact absurd dir file
    unfold FileTree.edit
    split
    · next other => simp [looked] at other
    · exact .same valid done
    · next other => simp [looked] at other
  · rw [Fish.kind_file dir] at looked
    unfold FileTree.edit
    split
    · next other => simp [looked] at other
    · next other => simp [looked] at other
    next old other =>
      obtain rfl : (s.nodes i).content = old := by
        rw [looked] at other
        exact Content.file.inj (Option.some.inj other)
      rcases outcome with ⟨isDir, _⟩ | ⟨_, long, done⟩ | ⟨_, fits, data, size, length, bytes, done⟩
      · exact absurd isDir dir
      · rw [if_pos long]
        exact .same valid done
      · rw [if_neg (Nat.not_lt.mpr fits)]
        obtain ⟨valid', same⟩ := valid.filled_put here found dir (length ▸ fits) bytes
          (FileTree.look_named (t := valid.toSound.view) (by simp [other]))
          (fun isDir => by cases other.symm.trans isDir) (.inl (by simp [other]))
        exact ⟨.ok, _, valid', done, congrArg (Prod.mk _) same⟩

theorem Valid.fishWrite_refines (valid : Valid s) (name : CString) (text : Text) :
    Refines (fishWrite s name text.toCString) (valid.toSound.view.write name text.chars) := by
  obtain ⟨d, here, _, _⟩ := valid.cwd
  exact valid.edit_refines here name (fun _ => text.chars) (valid.toSound.fishWrite_cases here name text)

theorem Valid.fishAppend_refines (valid : Valid s) (name : CString) (text : Text) :
    Refines (fishAppend s name text.toCString) (valid.toSound.view.append name text.chars) := by
  obtain ⟨d, here, _, _⟩ := valid.cwd
  exact valid.edit_refines here name (fun old => old ++ text.chars) (valid.toSound.fishAppend_cases here name text)

theorem Valid.fishRead_refines (valid : Valid s) (name : CString) :
    ∃ result, fishRead s name = .ok result ∧
      result.map (fun (size, data) => data.bytes.take size.toNat) = valid.toSound.view.read name := by
  obtain ⟨d, here, _, _⟩ := valid.cwd
  have looked := valid.toSound.look_eq here name
  unfold FileTree.read
  rcases valid.toSound.fishRead_cases here name with ⟨missing, done⟩ | ⟨i, found, ⟨dir, done⟩ | ⟨file, done⟩⟩
  · exact ⟨_, done, by simp [looked, missing]⟩
  · exact ⟨_, done, by simp [looked, found, Fish.kind_dir dir]⟩
  · exact ⟨_, done, by simp [looked, found, Fish.kind_file file, Node.content]⟩

end Contents

/-- In every state that calls of Fish reach, each operation is the reference operation
on the file tree that the state stands for. -/
theorem fish_refines_tree (reached : Reached s) (name : CString) (text : Text) :
    let tree := reached.valid.toSound.view
    Refines (fishMkdir s name) (tree.mkdir name) ∧ Refines (fishCreate s name) (tree.create name) ∧
      Refines (fishChdir s name) (tree.chdir name) ∧ Refines (fishRemove s name) (tree.remove name) ∧
      Refines (fishWrite s name text.toCString) (tree.write name text.chars) ∧
      Refines (fishAppend s name text.toCString) (tree.append name text.chars) ∧
      ∃ result, fishRead s name = .ok result ∧
        result.map (fun (size, data) => data.bytes.take size.toNat) = tree.read name := by
  have valid := reached.valid
  exact ⟨valid.fishMkdir_refines name, valid.fishCreate_refines name, valid.fishChdir_refines name,
    valid.fishRemove_refines name, valid.fishWrite_refines name text, valid.fishAppend_refines name text,
    valid.fishRead_refines name⟩

/-- After `mkdir a` and `cd a`, with the file name `b` and the text `hi`. -/
theorem fish_refines_tree_in_directory :
    ∃ s, ∃ reached : Reached s, runCalls fishInit [.mkdir ⟨[97], by decide⟩, .chdir ⟨[97], by decide⟩] = .ok s ∧
      Refines (fishCreate s ⟨[98], by decide⟩) (reached.valid.toSound.view.create ⟨[98], by decide⟩) ∧
      Refines (fishWrite s ⟨[98], by decide⟩ ⟨[104, 105], by decide⟩)
        (reached.valid.toSound.view.write ⟨[98], by decide⟩ [104, 105]) := by
  obtain ⟨s, ran, _⟩ := run_valid [.mkdir ⟨[97], by decide⟩, .chdir ⟨[97], by decide⟩] fishInit_valid
  have reached : Reached s := ⟨_, ran⟩
  have refined := fish_refines_tree reached ⟨[98], by decide⟩ ⟨⟨[104, 105], by decide⟩, by decide⟩
  exact ⟨s, reached, ran, refined.2.1, refined.2.2.2.2.1⟩

end Seaweed
