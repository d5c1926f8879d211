import Seaweed.Proofs.FishRefinement
import Seaweed.Proofs.FishReturn
import Seaweed.Proofs.FishStorage
import Seaweed.Proofs.UserLines
import Seaweed.Shell

/-! The names over a save and a reboot: what `user_save` puts into the tree, what
`user_load` reads out of it, and when the two fit together. -/

namespace Seaweed
open Library

/-- A name that some call of `user_set_name` or `user_set_host` has left. -/
def UserName.Accepted (n : UserName) : Prop := ∃ field value, setField field value = (true, n)

section Fields

variable {n : UserName}

theorem setField_eq (field : UserName) (value : CString) :
    setField field value = if value.chars ≠ [] ∧ ∀ c ∈ value.chars, 32 < signedChar c then (true, UserName.cut value)
      else (false, field) := by
  have low : (value.chars.any fun c => decide (signedChar c ≤ 32)) = true ↔ ¬ ∀ c ∈ value.chars, 32 < signedChar c := by
    simp
  rw [setField]
  by_cases empty : value.chars = []
  · rw [if_pos empty, if_neg fun both => both.1 empty]
  · rw [if_neg empty]
    by_cases good : ∀ c ∈ value.chars, 32 < signedChar c
    · rw [if_neg fun bad => low.mp bad good, if_pos ⟨empty, good⟩]
    · rw [if_pos (low.mpr good), if_neg fun both => good both.2]

theorem UserName.cut_chars (n : UserName) : UserName.cut n.toCString = n := by
  ext1
  exact List.take_of_length_le n.short

theorem UserName.accepted_iff : n.Accepted ↔ n.chars ≠ [] ∧ ∀ c ∈ n.chars, 32 < signedChar c := by
  constructor
  · intro ⟨field, value, set⟩
    rw [setField_eq] at set
    split at set
    next good =>
      obtain ⟨_, rfl⟩ := Prod.mk.inj set
      refine ⟨?_, fun c member => good.2 c (List.mem_of_mem_take member)⟩
      simpa [UserName.cut] using good.1
    next => cases set
  · intro good
    exact ⟨n, n.toCString, by rw [setField_eq, if_pos good, n.cut_chars]⟩

/-- Setting a field to a name it could have gives that name. -/
theorem UserName.Accepted.set (accepted : n.Accepted) (field : UserName) :
    setField field n.toCString = (true, n) := by
  rw [setField_eq, if_pos (UserName.accepted_iff.mp accepted), n.cut_chars]

theorem UserName.Accepted.no_newline (accepted : n.Accepted) : 10 ∉ n.chars := by
  intro member
  exact absurd ((UserName.accepted_iff.mp accepted).2 10 member) (by decide)

end Fields

section Lines

theorem UserName.Accepted.taken {n : UserName} (accepted : n.Accepted) (u : Users) :
    takeLine u 0 n.chars = { u with name := n } ∧ takeLine u 1 n.chars = { u with host := n } := by
  have nonempty := (UserName.accepted_iff.mp accepted).1
  have whole : CString.ofBytes (n.chars ++ [0]) = n.toCString := by
    simpa [CString.bytes] using CString.ofBytes_append n.toCString []
  constructor
  · rw [takeLine, if_neg nonempty, if_pos rfl, whole, accepted.set]
  · rw [takeLine, if_neg nonempty, if_neg (by decide), if_pos rfl, whole, accepted.set]

/-- The text of two names is read back as them, whatever the names were before. -/
theorem readLines_text {names : Users} (name : names.name.Accepted) (host : names.host.Accepted) (u : Users) :
    readLines u (names.text.chars.splitOn 10) = names := by
  have text : names.text.chars = names.name.chars ++ 10 :: (names.host.chars ++ 10 :: []) := by simp [Users.text]
  rw [text, List.splitOn_append_cons_of_beq _ _ (beq_self_eq_true 10), List.splitOn_append_cons_of_beq _ _ (beq_self_eq_true 10),
    List.splitOn_eq_singleton name.no_newline, List.splitOn_eq_singleton host.no_newline]
  rw [List.singleton_append, List.singleton_append, readLines, List.take_of_length_le names.name.short,
    List.take_of_length_le names.host.short, (name.taken u).1, (host.taken _).2]

end Lines

namespace FileTree

variable {t : FileTree} {name : CString} {text : List UInt8}

/-- A text can be kept in a file at the path: there is one, or nothing is there and the
tree has room for one more entry. -/
def Keeps (t : FileTree) (p : Path) : Prop :=
  (∃ old, t.entries p = some (.file old)) ∨ (t.entries p = none ∧ t.count < 63)

theorem write_file {old : List UInt8} (found : t.look name = some (.file old)) (short : text.length ≤ 512) :
    (t.write name text).1 = .ok ∧
      (t.write name text).2.entries = Function.update t.entries (name :: t.cwd) (some (.file text)) := by
  unfold write edit
  split
  · next other => simp [found] at other
  · next other => simp [found] at other
  · rw [if_neg (Nat.not_lt.mpr short)]
    exact ⟨rfl, rfl⟩

theorem write_other (text : List UInt8) (other : ∀ old, t.look name ≠ some (.file old)) :
    (t.write name text).1 ≠ .ok ∧ (t.write name text).2 = t := by
  unfold write edit
  split
  · exact ⟨nofun, rfl⟩
  · exact ⟨nofun, rfl⟩
  · next old found => exact absurd found (other old)

theorem read_file {old : List UInt8} (found : t.look name = some (.file old)) : t.read name = some old := by
  rw [read, found]

theorem read_other (other : ∀ old, t.look name ≠ some (.file old)) : t.read name = none := by
  unfold read
  split
  · next old found => exact absurd found (other old)
  · rfl

theorem create_free (named : Nameable name) (missing : t.look name = none) (room : t.count < 63) :
    (t.create name).2.entries = Function.update t.entries (name :: t.cwd) (some (.file [])) ∧
      (t.create name).2.cwd = t.cwd := by
  rw [create, add, dif_pos named, dif_neg (not_not_intro missing), dif_neg (Nat.ne_of_lt room)]
  exact ⟨rfl, rfl⟩

/-- Creating a file and writing it puts the text there and changes nothing else, or both
calls refuse. -/
theorem create_write (t : FileTree) (name : CString) (text : List UInt8) (named : Nameable name)
    (short : text.length ≤ 512) :
    (t.Keeps (name :: t.cwd) ∧ ((t.create name).2.write name text).1 = .ok ∧
      ((t.create name).2.write name text).2.entries = Function.update t.entries (name :: t.cwd) (some (.file text))) ∨
    (¬ t.Keeps (name :: t.cwd) ∧ (t.create name).1 ≠ .ok ∧ ((t.create name).2.write name text).1 ≠ .ok) := by
  by_cases free : t.look name = none ∧ t.count < 63
  · obtain ⟨missing, room⟩ := free
    obtain ⟨entries, cwd⟩ := create_free named missing room
    have looked : (t.create name).2.look name = some (.file []) := by
      rw [look, entries, cwd, Function.update_self]
    obtain ⟨done, held⟩ := write_file looked short
    rw [entries, cwd, Function.update_idem] at held
    exact .inl ⟨.inr ⟨missing, room⟩, done, held⟩
  have refused : (t.create name).1 ≠ .ok := by
    intro done
    rw [create, add, dif_pos named] at done
    split at done
    · cases done
    next missing =>
      split at done
      · cases done
      next full => exact free ⟨not_not.mp missing, lt_of_le_of_ne t.count_le full⟩
  rw [create] at refused ⊢
  rw [add_refused free]
  by_cases file : ∃ old, t.look name = some (.file old)
  · obtain ⟨old, found⟩ := file
    exact .inl ⟨.inl ⟨old, found⟩, write_file found short⟩
  · exact .inr ⟨not_or.mpr ⟨file, free⟩, refused, (write_other text fun old found => file ⟨old, found⟩).1⟩

theorem create_write_top (t : FileTree) (name : CString) (text : List UInt8) (named : Nameable name)
    (short : text.length ≤ 512) :
    (t.Keeps [name] ∧ (((t.enter [] t.top).create name).2.write name text).1 = .ok ∧
      (((t.enter [] t.top).create name).2.write name text).2.entries =
        Function.update t.entries [name] (some (.file text))) ∨
    (¬ t.Keeps [name] ∧ ((t.enter [] t.top).create name).1 ≠ .ok ∧
      (((t.enter [] t.top).create name).2.write name text).1 ≠ .ok) :=
  create_write (t.enter [] t.top) name text named short

end FileTree

section Config

variable {s : Fish} {u : Users}

theorem Valid.at_root (valid : Valid s) : ∃ root : Valid { s with current := 0 },
    root.toSound.view = valid.toSound.view.enter [] valid.toSound.view.top := by
  have move : Change s { s with current := index 0 } := .move valid.root.1 valid.root.2.1
  rw [index_zero] at move
  refine ⟨move.valid valid, ?_⟩
  exact ((move.valid valid).toSound.eq_view rfl ((move.valid valid).toSound.cwdPath_eq index_zero.symm .root).symm).symm

theorem Valid.entries_top (valid : Valid s) (name : CString) :
    valid.toSound.view.entries [name] = (s.child 0 name).map s.kind := by
  obtain ⟨root, top⟩ := valid.at_root
  have looked := root.toSound.look_eq index_zero.symm name
  rw [top] at looked
  exact looked

theorem fishRestoreCwd_nodes (handle : Int32) : (fishRestoreCwd s handle).nodes = s.nodes := by
  unfold fishRestoreCwd
  split
  · split <;> rfl
  · rfl

theorem Fish.entries_congr {after : Fish} (same : after.nodes = s.nodes) : after.entries = s.entries := by
  obtain ⟨nodes, current⟩ := after
  subst same
  rfl

theorem Users.text_short (u : Users) : u.text.chars.length ≤ 64 := by
  have name := u.name.short
  have host := u.host.short
  simp only [Users.text, List.length_append, List.length_singleton]
  omega

/-- `user_save` puts the names into the configuration file and comes back, or finds no
place for them and leaves everything as it was. -/
theorem Valid.userSave_spec (valid : Valid s) (u : Users) :
    ∃ kept after, Valid after ∧ userSave u s = .ok (kept, after) ∧ after.current = s.current ∧ after.cwdPath = s.cwdPath ∧
      ((valid.toSound.view.Keeps [configFile] ∧ kept = true ∧
          after.entries = Function.update s.entries [configFile] (some (.file u.text.chars))) ∨
        (¬ valid.toSound.view.Keeps [configFile] ∧ kept = false ∧ after = s)) := by
  obtain ⟨d, here, used, dir, path⟩ := valid.toSound.cwd_path
  let text : Text := ⟨u.text, Nat.lt_of_le_of_lt u.text_short (by decide)⟩
  obtain ⟨root, top⟩ := valid.at_root
  -- What the two calls do to the array, and what the file tree makes of them.
  obtain ⟨first, created, done1, edit1, refused1⟩ := root.toSound.fishCreate_edits configFile
  have valid1 := (Change.edit edit1).valid root
  obtain ⟨code, written, done2, edit2, refused2⟩ := valid1.toSound.fishWrite_edits configFile text
  have valid2 := (Change.edit edit2).valid valid1
  obtain ⟨_, _, _, done1', same1⟩ := root.fishCreate_refines configFile
  obtain ⟨rfl, rfl⟩ := Prod.mk.inj (Except.ok.inj (done1.symm.trans done1'))
  obtain ⟨_, _, _, done2', same2⟩ := valid1.fishWrite_refines configFile text
  obtain ⟨rfl, rfl⟩ := Prod.mk.inj (Except.ok.inj (done2.symm.trans done2'))
  have saved : userSave u s = .ok (decide (code = .ok), fishRestoreCwd written s.current) := by
    rw [userSave, fishChdir_root, ok_bind]
    simp only [done1, ok_bind]
    exact congrArg (fun result => result >>= _) done2
  have valid' : Valid (fishRestoreCwd written s.current) :=
    (valid2.toSound.fishRestoreCwd_change s.current).valid valid2
  -- The directory it comes from stays where it is.
  have live1 := root.toSound.fishCreate_used done1 used
  have live2 := valid1.toSound.fishWrite_used done2 live1
  obtain ⟨path1, dir1⟩ := edit1.path root.toSound path live1
  obtain ⟨path2, dir2⟩ := edit2.path valid1.toSound path1 live2
  have back := fishRestoreCwd_index written d
  rw [← here, if_pos ⟨live2, dir2 (dir1 dir)⟩] at back
  refine ⟨decide (code = .ok), _, valid', saved, by rw [back], ?_, ?_⟩
  · rw [back] at valid' ⊢
    exact valid'.toSound.cwdPath_eq here path2
  · have steps := FileTree.create_write_top valid.toSound.view configFile u.text.chars
      ((validName_iff configFile).mp rfl) (u.text_short.trans (by decide))
    rw [← top, same1, same2] at steps
    rcases steps with ⟨room, done, held⟩ | ⟨room, refused, refused'⟩
    · refine .inl ⟨room, decide_eq_true done, ?_⟩
      rw [Sound.view_entries, Sound.view_entries] at held
      rw [← held]
      exact Fish.entries_congr (fishRestoreCwd_nodes s.current)
    · refine .inr ⟨room, decide_eq_false refused', ?_⟩
      rw [refused2 refused', refused1 refused]
      exact valid.toSound.fishRestoreCwd_same 0

/-- What `user_load` reads is what the root has under the file's name. -/
theorem Valid.read_config (valid : Valid s) :
    ∃ result, fishRead { s with current := 0 } configFile = .ok result ∧
      (∀ size data, result = some (size, data) → size.toNat ≤ fishFileMax) ∧
      result.map (fun (size, data) => data.bytes.take size.toNat) =
        (valid.toSound.view.enter [] valid.toSound.view.top).read configFile := by
  obtain ⟨root, top⟩ := valid.at_root
  obtain ⟨result, done, same⟩ := root.fishRead_refines configFile
  obtain ⟨result', done', short⟩ := root.toSound.fishRead_inside configFile
  obtain rfl := Except.ok.inj (done.symm.trans done')
  exact ⟨result, done, short, by rw [same, top]⟩

/-- `user_load` reads the lines of the file at the root and leaves the tree alone. -/
theorem Valid.userLoad_file (valid : Valid s) {content : List UInt8}
    (found : valid.toSound.view.entries [configFile] = some (.file content)) (u : Users) :
    userLoad u s = .ok (true, readLines u (content.splitOn 10), s) := by
  obtain ⟨result, done, short, same⟩ := valid.read_config
  have held : (valid.toSound.view.enter [] valid.toSound.view.top).read configFile = some content :=
    FileTree.read_file found
  rw [held] at same
  obtain ⟨⟨size, data⟩, rfl, contents⟩ := Option.map_eq_some_iff.mp same
  have back := valid.toSound.fishRestoreCwd_same 0
  have read : data.bytes.take size.toNat = content := contents
  have scanned := @scanLines_whole data _ (short size data rfl) u
  rw [read, scanText_lines] at scanned
  rw [userLoad, fishChdir_root, ok_bind]
  simp only [done, ok_bind, fishSaveCwd, back, scanned]

/-- Without the file the names stay as they are. -/
theorem Valid.userLoad_other (valid : Valid s)
    (other : ∀ old, valid.toSound.view.entries [configFile] ≠ some (.file old)) (u : Users) :
    userLoad u s = .ok (false, u, s) := by
  obtain ⟨result, done, _, same⟩ := valid.read_config
  have missing : (valid.toSound.view.enter [] valid.toSound.view.top).read configFile = none :=
    FileTree.read_other other
  rw [missing, Option.map_eq_none_iff] at same
  subst same
  have back := valid.toSound.fishRestoreCwd_same 0
  rw [userLoad, fishChdir_root, ok_bind]
  simp only [done, ok_bind, fishSaveCwd, back]

/-- `user_load` takes the names out of the file that `user_save` leaves. -/
theorem Valid.userLoad_text (valid : Valid s) {names : Users} (name : names.name.Accepted)
    (host : names.host.Accepted) (found : valid.toSound.view.entries [configFile] = some (.file names.text.chars))
    (u : Users) : userLoad u s = .ok (true, names, s) := by
  rw [valid.userLoad_file found, readLines_text name host]

end Config

section Reboot

variable {s : Fish} {u : Users} {d : Drive}

/-- If `save` reports success, a boot from what it left on the disk ends with the same
names. -/
def RestoresIdentity (u : Users) (s : Fish) (d : Drive) : Prop :=
  ∀ after saved, cmdSave drive u s d = .ok (["Filesystem written to disk.\n"], after, saved) →
    ∃ restored device, boot drive saved = .ok (u, restored, device)

theorem cmdSave_healthy (healthy : d.Healthy) {kept : Bool} {after : Fish}
    (done : userSave u s = .ok (kept, after)) :
    cmdSave drive u s d = .ok (["Filesystem written to disk.\n"], after, d.saved after 71) := by
  have saved : fishSave drive after d = (.ok, d.saved after 71) :=
    fishSave_fine healthy.present fun i _ => healthy.fine _
  have fine : ¬ FishCode.ok.value < 0 := by decide
  rw [cmdSave, done, ok_bind]
  simp only [saved, if_neg fine]

/-- A boot loads the tree that was saved and takes the names from it. -/
theorem Sound.boot_saved (sound : Sound s) (healthy : d.Healthy) (attached : d.attached = true) {kept : Bool}
    {names : Users} {restored : Fish} (done : userLoad userInit s = .ok (kept, names, restored)) :
    ∃ device, boot drive (d.saved s 71) = .ok (names, restored, device) := by
  have found : drive.init (d.saved s 71) = (true, d.saved s 71) := by
    have plugged : { d.saved s 71 with present := true } = d.saved s 71 := by
      rw [← healthy.present]
      rfl
    have probed : drive.init (d.saved s 71) = (d.attached, { d.saved s 71 with present := d.attached }) := rfl
    rw [probed, attached, plugged]
  refine ⟨(d.saved s 71).ticks 71, ?_⟩
  simp only [boot, found, sound.load_saved healthy, if_true, done, ok_bind]

theorem Valid.restores_iff (valid : Valid s) (name : u.name.Accepted) (host : u.host.Accepted)
    (healthy : d.Healthy) (attached : d.attached = true) :
    RestoresIdentity u s d ↔ valid.toSound.view.Keeps [configFile] ∨ u = userInit := by
  obtain ⟨kept, after, valid', done, _, _, outcome⟩ := valid.userSave_spec u
  have whole := cmdSave_healthy healthy done
  rcases outcome with ⟨room, _, held⟩ | ⟨full, _, rfl⟩
  · have found : valid'.toSound.view.entries [configFile] = some (.file u.text.chars) := by
      rw [Sound.view_entries, held, Function.update_self]
    have loaded := valid'.userLoad_text name host found userInit
    obtain ⟨device, booted⟩ := valid'.toSound.boot_saved healthy attached loaded
    refine ⟨fun _ => .inl room, fun _ after' saved report => ?_⟩
    cases whole.symm.trans report
    exact ⟨_, device, booted⟩
  · have loaded := valid.userLoad_other (fun old file => full (.inl ⟨old, file⟩)) userInit
    obtain ⟨device, booted⟩ := valid.toSound.boot_saved healthy attached loaded
    constructor
    · intro restores
      obtain ⟨restored', device', booted'⟩ := restores _ _ whole
      cases booted.symm.trans booted'
      exact .inr rfl
    · intro defaults after' saved report
      cases whole.symm.trans report
      rw [defaults.resolve_left full]
      exact ⟨_, device, booted⟩

/-- In every state that calls of Fish reach, the names survive a save and a reboot
exactly when the root can keep the configuration file or the names are the defaults. -/
theorem save_reboot_restores_iff (reached : Reached s) (name : u.name.Accepted) (host : u.host.Accepted)
    (healthy : d.Healthy) (attached : d.attached = true) :
    RestoresIdentity u s d ↔ reached.valid.toSound.view.Keeps [configFile] ∨ u = userInit :=
  reached.valid.restores_iff name host healthy attached

def neo : Users := { userInit with name := ⟨⟨[110, 101, 111], by decide⟩, by decide⟩ }

theorem neo_accepted : neo.name.Accepted ∧ neo.host.Accepted :=
  ⟨⟨userInit.name, neo.name.toCString, rfl⟩, ⟨userInit.host, neo.host.toCString, rfl⟩⟩

/-- `touch ys.conf`, then a name and a save on a blank drive. -/
theorem save_reboot_restores_file :
    ∃ s, runCalls fishInit [.create configFile] = .ok s ∧ RestoresIdentity neo s Drive.blank := by
  obtain ⟨s, ran, valid⟩ := run_valid [.create configFile] fishInit_valid
  have reached : Reached s := ⟨_, ran⟩
  have file : (runCalls fishInit [.create configFile]).toOption.map
      (fun s => (s.child 0 configFile).map s.kind) = some (some (.file [])) := rfl
  rw [ran] at file
  have held := (valid.entries_top configFile).trans (Option.some.inj file)
  exact ⟨s, ran, (save_reboot_restores_iff reached neo_accepted.1 neo_accepted.2 Drive.blank_healthy rfl).mpr
    (.inl (.inl ⟨_, held⟩))⟩

/-- After `mkdir ys.conf` a save reports success and the name is gone after a reboot. -/
theorem save_reboot_loses_name : ¬ ∀ (u : Users) (s : Fish) (d : Drive), Reached s → u.name.Accepted →
    u.host.Accepted → d.Healthy → d.attached = true → RestoresIdentity u s d := by
  intro all
  obtain ⟨s, ran, valid⟩ := run_valid [.mkdir configFile] fishInit_valid
  have dir : (runCalls fishInit [.mkdir configFile]).toOption.map
      (fun s => (s.child 0 configFile).map s.kind) = some (some .dir) := rfl
  rw [ran] at dir
  have held := (valid.entries_top configFile).trans (Option.some.inj dir)
  have restores := all neo s Drive.blank ⟨_, ran⟩ neo_accepted.1 neo_accepted.2 Drive.blank_healthy rfl
  rcases (valid.restores_iff neo_accepted.1 neo_accepted.2 Drive.blank_healthy rfl).mp restores with
    (⟨old, file⟩ | ⟨missing, _⟩) | defaults
  · cases held.symm.trans file
  · cases held.symm.trans missing
  · have same := congrArg (fun u => u.name.chars) defaults
    exact absurd same (by decide)

end Reboot

end Seaweed
