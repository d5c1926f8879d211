import Seaweed.Computer
import Seaweed.Proofs.FailedCommands
import Seaweed.Proofs.FishTrust
import Seaweed.Proofs.UserFile

/-! When the tree in memory, the disk and the names stand for a session, and what loading,
saving and storing the names do to that. -/

namespace Seaweed
open Library

namespace FileTree

variable {t : FileTree} {name : CString} {text : List UInt8}

@[simp] theorem enter_cwd {p : Path} (dir : t.entries p = some .dir) : (t.enter p dir).cwd = p := rfl

@[simp] theorem enter_entries {p : Path} (dir : t.entries p = some .dir) : (t.enter p dir).entries = t.entries := rfl

theorem returnTo_dir {p : Path} (dir : t.entries p = some .dir) : t.returnTo p = t.enter p dir := dif_pos dir

/-- Without room for the file nothing is made or written. -/
theorem create_write_refused (full : ¬ t.Keeps (name :: t.cwd)) : ((t.create name).2.write name text).2 = t := by
  obtain ⟨file, free⟩ := not_or.mp full
  rw [create, add_refused free]
  exact (write_other text fun old found => file ⟨old, found⟩).2

theorem keepNames_cases (t : FileTree) (u : Users) :
    (t.Keeps [configFile] ∧ (t.keepNames u).cwd = t.cwd ∧
      (t.keepNames u).entries = Function.update t.entries [configFile] (some (.file u.text.chars))) ∨
    (¬ t.Keeps [configFile] ∧ t.keepNames u = t) := by
  have named : Nameable configFile := (validName_iff configFile).mp rfl
  rcases create_write_top t configFile u.text.chars named (u.text_short.trans (by decide)) with
    ⟨room, _, entries⟩ | ⟨full, _, _⟩
  · have elsewhere : t.cwd ≠ [configFile] := by
      intro same
      have here := t.here
      rw [same] at here
      rcases room with ⟨old, found⟩ | ⟨missing, _⟩
      · cases found.symm.trans here
      · cases missing.symm.trans here
    have dir : (((t.enter [] t.top).create configFile).2.write configFile u.text.chars).2.entries t.cwd = some .dir := by
      rw [entries, Function.update_of_ne elsewhere]
      exact t.here
    have back : t.keepNames u = _ := returnTo_dir dir
    rw [back, enter_cwd, enter_entries]
    exact .inl ⟨room, rfl, entries⟩
  · have refused : ¬ (t.enter [] t.top).Keeps (configFile :: (t.enter [] t.top).cwd) := full
    have same := @create_write_refused _ _ u.text.chars refused
    refine .inr ⟨full, ?_⟩
    rw [keepNames, same]
    exact returnTo_dir (t := t.enter [] t.top) t.here

end FileTree

/-- The tree in memory stands for a file tree. -/
structure Fish.Stands (s : Fish) (t : FileTree) : Prop where
  valid : Valid s
  entries : s.entries = t.entries
  cwd : s.cwdPath = t.cwd

section Trees

variable {s : Fish} {t : FileTree} {u : Users} {d : Drive} {image : Image} {attached : Bool}

theorem Fish.Stands.view (stands : s.Stands t) : stands.valid.toSound.view = t := by
  apply FileTree.ext
  · rw [Sound.view_entries, stands.entries]
  · rw [Sound.view_cwd, stands.cwd]

theorem Valid.stands (valid : Valid s) : s.Stands valid.toSound.view where
  valid := valid
  entries := valid.toSound.view_entries.symm
  cwd := valid.toSound.view_cwd.symm

theorem Refines.stands {result : Checked (FishCode × Fish)} {expected : FishCode × FileTree} (refines : Refines result expected) :
    ∃ after, result = .ok (expected.1, after) ∧ after.Stands expected.2 := by
  obtain ⟨code, after, valid, done, rfl⟩ := refines
  exact ⟨after, done, valid.stands⟩

theorem fishInit_stands : fishInit.Stands .bare where
  valid := fishInit_valid
  entries := by
    funext p
    by_cases top : p = []
    · have root := fishInit_valid.toSound.view.top
      rw [Sound.view_entries] at root
      rw [top, root]
      rfl
    · rw [fishInit_entries top]
      exact (if_neg top).symm
  cwd := by
    by_contra inner
    have here := fishInit_valid.toSound.view.here
    rw [Sound.view_entries, Sound.view_cwd, fishInit_entries inner] at here
    cases here

/-- Storing the names is `keepNames` of the file tree. -/
theorem Fish.Stands.userSave (stands : s.Stands t) (u : Users) :
    ∃ kept after, userSave u s = .ok (kept, after) ∧ after.Stands (t.keepNames u) := by
  obtain ⟨kept, after, valid, saved, _, cwd, outcome⟩ := stands.valid.userSave_spec u
  rw [stands.view] at outcome
  refine ⟨kept, after, saved, ?_⟩
  rcases outcome with ⟨room, _, entries⟩ | ⟨full, _, rfl⟩
  · rcases t.keepNames_cases u with ⟨_, cwd', entries'⟩ | ⟨full, _⟩
    · exact ⟨valid, by rw [entries, entries', stands.entries], by rw [cwd, cwd', stands.cwd]⟩
    · exact absurd room full
  · rcases t.keepNames_cases u with ⟨room, _, _⟩ | ⟨_, same⟩
    · exact absurd room full
    · rw [same]
      exact stands

/-- A start reads the names from the file of the tree. -/
theorem Fish.Stands.userLoad (stands : s.Stands t) : ∃ read, userLoad userInit s = .ok (read, t.names, s) := by
  have view := stands.view
  by_cases file : ∃ content, t.entries [configFile] = some (.file content)
  · obtain ⟨content, found⟩ := file
    have held : stands.valid.toSound.view.entries [configFile] = some (.file content) := by rw [view, found]
    have loaded := stands.valid.userLoad_file held userInit
    refine ⟨true, ?_⟩
    rw [loaded, FileTree.names, found]
  · have loaded := stands.valid.userLoad_other (by rw [view]; exact fun old found => file ⟨old, found⟩) userInit
    refine ⟨false, ?_⟩
    rw [loaded, FileTree.names]
    split
    next content found => exact absurd ⟨content, found⟩ file
    next => rfl

theorem FileTree.names_accepted (t : FileTree) : t.names.Accepted := by
  unfold FileTree.names
  split
  next => exact readLines_accepted userInit_accepted _
  next => exact userInit_accepted

end Trees

section Disks

variable {s : Fish} {t : FileTree} {d : Drive} {image : Image} {attached : Bool}

/-- The root that `fish_load` asks for. -/
def Drive.Rootless (d : Drive) : Prop := (nodesAt d.area 0).used = 0 ∨ (nodesAt d.area 0).isDir = 0

/-- What `fish_load` would make of the sectors. An image that it accepts has to be a valid
tree, as `fish_save` writes it. -/
def Drive.Bears (d : Drive) : Image → Prop
  | .unknown => ¬ d.header.Recognised
  | .rootless => d.header.Recognised ∧ d.Rootless
  | .tree t => d.header.Recognised ∧ ¬ d.Rootless ∧ d.loaded.Stands t

/-- A disk that never fails, or none. -/
structure Drive.Carries (d : Drive) (attached : Bool) (image : Image) : Prop where
  fine : ∀ n, d.faulty n = false
  attached : d.attached = attached
  bears : d.Bears image

theorem Drive.Carries.later (carries : d.Carries attached image) (n : ℕ) : (d.ticks n).Carries attached image where
  fine := carries.fine
  attached := carries.attached
  bears := by
    have bears := carries.bears
    cases image <;> exact bears

theorem Drive.Carries.fishLoad (carries : d.Carries true image) (present : d.present = true) (ram : Fish) :
    ∃ n, (image = .unknown ∧ fishLoad drive ram d = (.format, ram, d.ticks n)) ∨
      (image = .rootless ∧ fishLoad drive ram d = (.format, fishInit, d.ticks n)) ∨
      ∃ t, image = .tree t ∧ fishLoad drive ram d = (.ok, d.loaded, d.ticks n) ∧ d.loaded.Stands t := by
  have healthy : d.Healthy := ⟨present, carries.fine⟩
  have bears := carries.bears
  cases image with
  | unknown =>
    rcases fishLoad_cases ram d with ⟨absent, _⟩ | ⟨_, fault, _⟩ | ⟨_, _, _, done⟩ | ⟨_, known, _⟩ | ⟨_, known, _⟩
    · cases absent.symm.trans present
    · cases fault.symm.trans (carries.fine _)
    · exact ⟨1, .inl ⟨rfl, done⟩⟩
    · exact absurd known bears
    · exact absurd known bears
  | rootless =>
    refine ⟨71, .inr (.inl ⟨rfl, ?_⟩)⟩
    exact (healthy.fishLoad_eq bears.1 ram).trans (if_pos bears.2)
  | tree t =>
    refine ⟨71, .inr (.inr ⟨t, rfl, ?_, bears.2.2⟩)⟩
    exact (healthy.fishLoad_eq bears.1 ram).trans (if_neg bears.2.1)

theorem Drive.saved_loaded (valid : Valid s) (d : Drive) : (d.saved s 71).loaded = s := by
  have header : (d.saved s 71).header.current = s.current.toUInt32.toNat := by rw [Drive.saved_header]
  rw [Drive.loaded, Drive.saved_whole, header, loadCurrent_saved valid.toSound]

theorem Drive.Carries.fishSave (carries : d.Carries true image) (present : d.present = true) (stands : s.Stands t) :
    fishSave drive s d = (.ok, d.saved s 71) ∧ (d.saved s 71).Carries true (.tree t) := by
  have healthy : d.Healthy := ⟨present, carries.fine⟩
  refine ⟨fishSave_fine present fun i _ => carries.fine _, carries.fine, carries.attached, ?_, ?_, ?_⟩
  · rw [Drive.saved_header]
    exact ⟨rfl, rfl, rfl, rfl⟩
  · obtain ⟨used, dir, _⟩ := stands.valid.toSound.root
    rw [Drive.Rootless, Drive.saved_whole]
    exact not_or.mpr ⟨used, dir⟩
  · rw [Drive.saved_loaded stands.valid]
    exact stands

end Disks

/-- A machine stands for a session. -/
structure ShellState.Stands (t : ShellState) (m : Machine Drive) : Prop where
  users : m.users = t.users
  accepted : t.users.Accepted
  tree : m.fish.Stands t.tree
  disk : m.disk.Carries t.attached t.image
  present : m.disk.present = t.attached

end Seaweed
