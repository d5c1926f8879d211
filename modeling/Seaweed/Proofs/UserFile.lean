import Seaweed.Proofs.UserIdentity

/-! The file of the names: what storing them does to the rest of the tree, how they come
back from it, and how its lines compare with names that are typed. -/

namespace Seaweed
open Library

variable {s t after : Fish} {u : Users}

section Storing

theorem Valid.keeps_iff (valid : Valid s) : ¬ valid.toSound.view.Keeps [configFile] ↔
    s.entries [configFile] = some .dir ∨ s.entries [configFile] = none ∧ ∀ i, i ≠ 0 → s.Used i := by
  have full : valid.toSound.view.count = 63 ↔ ∀ i, i ≠ 0 → s.Used i := by
    rw [FileTree.count, Sound.view_entries]
    exact valid.toSound.occupied_full
  have room : valid.toSound.view.count < 63 ↔ ¬ ∀ i, i ≠ 0 → s.Used i := by
    rw [← full]
    have most := valid.toSound.view.count_le
    omega
  rw [FileTree.Keeps, room, Sound.view_entries]
  cases s.entries [configFile] with
  | none => simp
  | some content => cases content <;> simp

theorem Valid.userLoad_tree (valid : Valid s) (u : Users) : ∃ read names, userLoad u s = .ok (read, names, s) := by
  by_cases file : ∃ content, valid.toSound.view.entries [configFile] = some (.file content)
  · obtain ⟨content, found⟩ := file
    exact ⟨true, _, valid.userLoad_file found u⟩
  · exact ⟨false, u, valid.userLoad_other (fun old found => file ⟨old, found⟩) u⟩

/-- `user_save` comes back to where it was and changes at most the file of the names,
which it refuses only when a directory has its name or no node is left for it.
`user_load` changes nothing in the tree. -/
theorem user_save_disturbs_nothing (reached : Reached s) (u : Users) :
    (∃ kept after, userSave u s = .ok (kept, after) ∧ after.current = s.current ∧
      (kept = true → after.cwdPath = s.cwdPath ∧
        after.entries = Function.update s.entries [configFile] (some (.file (u.name.chars ++ [10] ++ u.host.chars ++ [10])))) ∧
      (kept = false → after = s) ∧
      (kept = false ↔
        s.entries [configFile] = some .dir ∨ s.entries [configFile] = none ∧ ∀ i, i ≠ 0 → s.Used i)) ∧
    ∃ read names, userLoad u s = .ok (read, names, s) := by
  have valid := reached.valid
  refine ⟨?_, valid.userLoad_tree u⟩
  obtain ⟨kept, after, _, saved, current, cwd, outcome⟩ := valid.userSave_spec u
  refine ⟨kept, after, saved, current, ?_⟩
  rw [← valid.keeps_iff]
  rcases outcome with ⟨room, rfl, held⟩ | ⟨full, rfl, same⟩
  · exact ⟨fun _ => ⟨cwd, held⟩, nofun, nofun, fun full => absurd room full⟩
  · exact ⟨nofun, fun _ => same, fun _ => full, fun _ => rfl⟩

theorem user_save_disturbs_nothing_of_blocked : ∃ s, runCalls fishInit [.mkdir configFile, .chdir configFile] = .ok s ∧
    ∃ kept after, userSave userInit s = .ok (kept, after) ∧ after.current = s.current := by
  obtain ⟨s, ran, _⟩ := run_valid [.mkdir configFile, .chdir configFile] fishInit_valid
  obtain ⟨⟨kept, after, saved, current, _⟩, _⟩ := @user_save_disturbs_nothing s ⟨_, ran⟩ userInit
  exact ⟨s, ran, kept, after, saved, current⟩

end Storing

section Names

variable {n field : UserName} {names : Users} {calls : List UserCall}

/-- What the user module keeps in its two fields. -/
def UserName.Legal (n : UserName) : Prop :=
  1 ≤ n.chars.length ∧ n.chars.length ≤ 31 ∧ ∀ c ∈ n.chars, 32 < signedChar c

theorem UserName.legal_iff : n.Legal ↔ n.Accepted := by
  rw [UserName.accepted_iff, UserName.Legal, Nat.one_le_iff_ne_zero, ne_eq, List.length_eq_zero_iff]
  exact ⟨fun legal => ⟨legal.1, legal.2.2⟩, fun good => ⟨good.1, n.short, good.2⟩⟩

/-- A field is left as it is or gets an accepted value, by every one of the calls. -/
theorem setField_accepted (kept : field.Accepted) (value : CString) : (setField field value).2.Accepted := by
  cases set : setField field value with
  | mk accepted n =>
    cases accepted with
    | true => exact ⟨field, value, set⟩
    | false =>
      rw [setField_eq] at set
      split at set
      next => cases set
      next =>
        obtain ⟨_, rfl⟩ := Prod.mk.inj set
        exact kept

def Users.Accepted (u : Users) : Prop := u.name.Accepted ∧ u.host.Accepted

theorem userInit_accepted : userInit.Accepted :=
  ⟨⟨userInit.name, userInit.name.toCString, rfl⟩, ⟨userInit.host, userInit.host.toCString, rfl⟩⟩

theorem takeLine_accepted (kept : u.Accepted) (line : ℕ) (field : List UInt8) : (takeLine u line field).Accepted := by
  unfold takeLine
  split
  next => exact kept
  next =>
    split
    next => exact ⟨setField_accepted kept.1 _, kept.2⟩
    next =>
      split
      next => exact ⟨kept.1, setField_accepted kept.2 _⟩
      next => exact kept

theorem readLines_accepted (kept : u.Accepted) (lines : List (List UInt8)) : (readLines u lines).Accepted := by
  cases lines with
  | nil => exact kept
  | cons first rest =>
    cases rest with
    | nil => exact takeLine_accepted kept 0 _
    | cons second more => exact takeLine_accepted (takeLine_accepted kept 0 _) 1 _

theorem UserCall.keeps (kept : u.Accepted) {call : UserCall} (valid : ∀ s, call = .load s → Valid s) :
    ∃ names, call.run u = .ok names ∧ names.Accepted := by
  cases call with
  | setName value => exact ⟨_, rfl, setField_accepted kept.1 value, kept.2⟩
  | setHost value => exact ⟨_, rfl, kept.1, setField_accepted kept.2 value⟩
  | load s =>
    have valid := valid s rfl
    by_cases file : ∃ content, valid.toSound.view.entries [configFile] = some (.file content)
    · obtain ⟨content, found⟩ := file
      refine ⟨readLines u (content.splitOn 10), ?_, readLines_accepted kept _⟩
      rw [UserCall.run, valid.userLoad_file found u]
      rfl
    · refine ⟨u, ?_, kept⟩
      rw [UserCall.run, valid.userLoad_other (fun old found => file ⟨old, found⟩) u]
      rfl

theorem userCalls_keep (kept : u.Accepted) (valid : ∀ s, .load s ∈ calls → Valid s) :
    ∃ names, runUserCalls u calls = .ok names ∧ names.Accepted :=
  foldlM_keeps (fun _ _ member kept => UserCall.keeps kept fun s same => valid s (same ▸ member)) kept

/-- Whatever sets the names, they stay 1 to 31 printable bytes; and once saved they come
back from the file, as long as the file is left alone. -/
theorem user_names_round_trip (calls : List UserCall) (valid : ∀ s, .load s ∈ calls → Valid s) :
    ∃ u, runUserCalls userInit calls = .ok u ∧ u.name.Legal ∧ u.host.Legal ∧
      ∀ s after, Valid s → userSave u s = .ok (true, after) →
        ∀ t, Valid t → t.entries [configFile] = after.entries [configFile] →
          ∀ other : Users, userLoad other t = .ok (true, u, t) := by
  obtain ⟨u, ran, name, host⟩ := userCalls_keep userInit_accepted valid
  refine ⟨u, ran, UserName.legal_iff.mpr name, UserName.legal_iff.mpr host, ?_⟩
  intro s after valid saved t valid' alone other
  obtain ⟨kept, after', _, saved', _, _, outcome⟩ := valid.userSave_spec u
  obtain ⟨rfl, rfl⟩ := Prod.mk.inj (Except.ok.inj (saved.symm.trans saved'))
  rcases outcome with ⟨_, _, held⟩ | ⟨_, refused, _⟩
  · apply valid'.userLoad_text name host
    rw [Sound.view_entries, alone, held, Function.update_self]
  · cases refused

/-- The names are set, one of them refused, and saved from a directory; then the shell leaves
it, and a system with the first names loads them. -/
theorem user_names_round_trip_of_saved :
    ∃ u s after t, runUserCalls userInit [.setName ⟨[110, 101, 111], by decide⟩, .load fishInit, .setHost ⟨[32], by decide⟩,
        .setHost ⟨[98, 111, 120], by decide⟩] = .ok u ∧
      u.name.chars = [110, 101, 111] ∧ u.host.chars = [98, 111, 120] ∧
      runCalls fishInit [.mkdir ⟨[97], by decide⟩, .chdir ⟨[97], by decide⟩] = .ok s ∧ userSave u s = .ok (true, after) ∧
      fishChdir after rootName = .ok (.ok, t) ∧ userLoad userInit t = .ok (true, u, t) := by
  have valid : ∀ s, .load s ∈ [UserCall.setName ⟨[110, 101, 111], by decide⟩, .load fishInit, .setHost ⟨[32], by decide⟩,
      .setHost ⟨[98, 111, 120], by decide⟩] → Valid s := by
    intro s member
    have same : s = fishInit := by simpa using member
    exact same ▸ fishInit_valid
  obtain ⟨u, named, _, _, back⟩ := user_names_round_trip _ valid
  obtain ⟨s, ran, valid'⟩ := run_valid [.mkdir ⟨[97], by decide⟩, .chdir ⟨[97], by decide⟩] fishInit_valid
  have names : (runUserCalls userInit [.setName ⟨[110, 101, 111], by decide⟩, .load fishInit, .setHost ⟨[32], by decide⟩,
      .setHost ⟨[98, 111, 120], by decide⟩]).toOption.map (fun u => (u.name.chars, u.host.chars)) =
        some ([110, 101, 111], [98, 111, 120]) := by decide +kernel
  have room : ((runUserCalls userInit [.setName ⟨[110, 101, 111], by decide⟩, .load fishInit, .setHost ⟨[32], by decide⟩,
      .setHost ⟨[98, 111, 120], by decide⟩]).toOption.bind fun u =>
        (runCalls fishInit [.mkdir ⟨[97], by decide⟩, .chdir ⟨[97], by decide⟩]).toOption.bind fun s =>
          (userSave u s).toOption.map Prod.fst) = some true := by decide +kernel
  rw [named] at names room
  rw [ran] at room
  obtain ⟨kept, after, valid₁, saved, _⟩ := valid'.userSave_spec u
  simp only [Except.toOption, Option.bind_some, saved, Option.map_some, Option.some.injEq, Prod.mk.injEq] at names room
  subst room
  obtain ⟨root, _⟩ := valid₁.at_root
  refine ⟨u, s, after, _, named, names.1, names.2, ran, saved, fishChdir_root after, ?_⟩
  exact back s after valid' saved _ root (congrFun (Fish.entries_congr rfl) _) userInit

end Names

section Typing

variable {field : UserName} {line content : List UInt8}

/-- What typing the lines of the file one by one would set. -/
def Users.typed (u : Users) : List (List UInt8) → Users
  | [] => u
  | [first] => (userSetName u (CString.ofBytes first)).2
  | first :: second :: _ => (userSetHost (userSetName u (CString.ofBytes first)).2 (CString.ofBytes second)).2

/-- The first 31 bytes of the line make a good name and a bad byte comes later: the
reader no longer has it when it checks the name. -/
def Deceptive (line : List UInt8) : Prop :=
  (∀ c ∈ line.take 31, 32 < signedChar c) ∧ ∃ c ∈ line.drop 31, signedChar c ≤ 32

/-- Reading the line as typing it: it is not deceptive, or the name is what it pretends to be. -/
def ReadAsTyped (field : UserName) (line : Option (List UInt8)) : Prop :=
  ∀ chars, line = some chars → ¬ Deceptive chars ∨ field.chars = chars.take 31

/-- What the reader leaves in a field for a line. -/
def readField (field : UserName) (line : List UInt8) : UserName :=
  if line.take 31 = [] then field else (setField field (CString.ofBytes (line.take 31 ++ [0]))).2

theorem takeLine_first (u : Users) (line : List UInt8) :
    takeLine u 0 (line.take 31) = { u with name := readField u.name line } := by
  unfold takeLine readField
  split <;> rfl

theorem takeLine_second (u : Users) (line : List UInt8) :
    takeLine u 1 (line.take 31) = { u with host := readField u.host line } := by
  unfold takeLine readField
  split <;> rfl

theorem mem_intercalate {sep : List UInt8} {lines : List (List UInt8)} {c : UInt8} (here : line ∈ lines) (inside : c ∈ line) :
    c ∈ sep.intercalate lines := by
  induction lines with
  | nil => exact absurd here List.not_mem_nil
  | cons first rest ih =>
    cases rest with
    | nil =>
      rw [List.intercalate_singleton, ← List.mem_singleton.mp here]
      exact inside
    | cons second more =>
      rw [List.intercalate_cons_cons]
      rcases List.mem_cons.mp here with rfl | later
      · exact List.mem_append_left _ (List.mem_append_left _ inside)
      · exact List.mem_append_right _ (ih later)

theorem readField_iff (whole : 0 ∉ line) :
    readField field line = (setField field (CString.ofBytes line)).2 ↔ ¬ Deceptive line ∨ field.chars = line.take 31 := by
  have kept : 0 ∉ line.take 31 := fun member => whole (List.mem_of_mem_take member)
  have typed : CString.ofBytes line = ⟨line, whole⟩ := CString.ofBytes_chars ⟨line, whole⟩
  have cut : CString.ofBytes (line.take 31 ++ [0]) = ⟨line.take 31, kept⟩ := by
    have back := CString.ofBytes_append ⟨line.take 31, kept⟩ []
    rwa [CString.bytes, List.append_nil] at back
  rw [readField, cut, typed, setField_eq, setField_eq]
  by_cases empty : line = []
  · subst empty
    simp [Deceptive]
  have nonempty : line.take 31 ≠ [] := by simpa using empty
  rw [if_neg nonempty]
  by_cases head : ∀ c ∈ line.take 31, 32 < signedChar c
  · rw [if_pos ⟨nonempty, head⟩]
    by_cases tail : ∀ c ∈ line.drop 31, 32 < signedChar c
    · -- All of the line is good, so the two cuts are the same.
      have good : ∀ c ∈ line, 32 < signedChar c := by
        intro c member
        rw [← List.take_append_drop 31 line] at member
        exact (List.mem_append.mp member).elim (head c) (tail c)
      have plain : ¬ Deceptive line := by
        rintro ⟨_, c, member, low⟩
        exact absurd (tail c member) (Int.not_lt.mpr low)
      have same : UserName.cut ⟨line.take 31, kept⟩ = UserName.cut ⟨line, whole⟩ := by
        ext1
        exact List.take_take.trans (by rw [Nat.min_self, UserName.cut])
      rw [if_pos ⟨empty, good⟩]
      exact iff_of_true same (.inl plain)
    · have bad : ¬ ∀ c ∈ line, 32 < signedChar c := fun good => tail fun c member => good c (List.mem_of_mem_drop member)
      have deceptive : Deceptive line := ⟨head, by simpa using tail⟩
      have taken : (UserName.cut ⟨line.take 31, kept⟩).chars = line.take 31 := List.take_take.trans (by rw [Nat.min_self])
      rw [if_neg fun both => bad both.2]
      constructor
      · intro same
        have spelled := congrArg (fun n : UserName => n.chars) same
        exact .inr (spelled.symm.trans taken)
      · intro plain
        ext1
        exact taken.trans (plain.resolve_left (not_not_intro deceptive)).symm
  · have bad : ¬ ∀ c ∈ line, 32 < signedChar c := fun good => head fun c member => good c (List.mem_of_mem_take member)
    rw [if_neg fun both => head both.2, if_neg fun both => bad both.2]
    exact iff_of_true rfl (.inl fun deceptive => head deceptive.1)

theorem readAsTyped_none {field : UserName} : ReadAsTyped field none := by
  intro chars same
  cases same

theorem readField_typed (field : UserName) (whole : 0 ∉ line) :
    readField field line = (setField field (CString.ofBytes line)).2 ↔ ReadAsTyped field (some line) := by
  refine (readField_iff whole).trans ⟨fun plain chars same => ?_, fun plain => plain line rfl⟩
  rwa [← Option.some.inj same]

/-- Loading sets the names as typing the file's lines would, exactly when no line is
deceptive other than by spelling the name that is already set. -/
theorem user_load_reads_as_typed_iff (valid : Valid s) (found : s.entries [configFile] = some (.file content))
    (text : 0 ∉ content) (u : Users) :
    ∃ names, userLoad u s = .ok (true, names, s) ∧
      (names = u.typed (content.splitOn 10) ↔
        ReadAsTyped u.name (content.splitOn 10)[0]? ∧ ReadAsTyped u.host (content.splitOn 10)[1]?) := by
  have held : valid.toSound.view.entries [configFile] = some (.file content) := by rwa [Sound.view_entries]
  refine ⟨_, valid.userLoad_file held u, ?_⟩
  have inside : ∀ line ∈ content.splitOn 10, 0 ∉ line := by
    intro line member zero
    have whole : [10].intercalate (content.splitOn 10) = content := List.intercalate_splitOn 10
    exact text (whole ▸ mem_intercalate member zero)
  generalize content.splitOn 10 = lines at inside ⊢
  cases lines with
  | nil => exact iff_of_true rfl ⟨readAsTyped_none, readAsTyped_none⟩
  | cons first rest =>
    have name := readField_typed u.name (inside first (by simp))
    cases rest with
    | nil =>
      rw [readLines, takeLine_first]
      exact ⟨fun same => ⟨name.mp (congrArg Users.name same), readAsTyped_none⟩, fun both => Users.ext (name.mpr both.1) rfl⟩
    | cons second more =>
      have host := readField_typed u.host (inside second (by simp))
      rw [readLines, takeLine_first, takeLine_second]
      exact ⟨fun same => ⟨name.mp (congrArg Users.name same), host.mp (congrArg Users.host same)⟩,
        fun both => Users.ext (name.mpr both.1) (host.mpr both.2)⟩

/-- Any text that fits can be the content of the file of the names. -/
theorem config_written (text : Text) (short : text.chars.length ≤ 512) :
    ∃ s, Reached s ∧ s.entries [configFile] = some (.file text.chars) := by
  obtain ⟨s, ran, valid⟩ := run_valid [.create configFile] fishInit_valid
  have file : (runCalls fishInit [.create configFile]).toOption.map
      (fun s => (s.current, (s.child 0 configFile).map s.kind)) = some (0, some (.file [])) := rfl
  rw [ran] at file
  obtain ⟨here, kind⟩ := Prod.mk.inj (Option.some.inj file)
  have looked : valid.toSound.view.look configFile = some (.file []) := (valid.toSound.look_eq (here.trans index_zero.symm) configFile).trans kind
  have top : valid.toSound.view.cwd = [] := (Sound.view_cwd _).trans (valid.toSound.cwdPath_eq (here.trans index_zero.symm) .root)
  obtain ⟨code, after, valid', done, same⟩ := valid.fishWrite_refines configFile text
  have written := (FileTree.write_file looked short).2
  rw [same, Sound.view_entries, top] at written
  refine ⟨after, ⟨[.create configFile, .write configFile text], ?_⟩, by rw [written, Function.update_self]⟩
  have step : FishCall.run s (.write configFile text) = .ok after := by rw [FishCall.run, done, ok_bind]
  refine (runCalls_append fishInit [.create configFile] [.write configFile text]).trans ?_
  rw [ran, ok_bind, runCalls_cons step]
  rfl

/-- 31 good characters and a space. -/
def spaced : Text := ⟨⟨List.replicate 31 97 ++ [32], by decide⟩, by decide⟩

theorem user_load_reads_as_typed_of_spaced : ∃ s, Reached s ∧ ∃ names, userLoad userInit s = .ok (true, names, s) ∧
    (names = userInit.typed (spaced.chars.splitOn 10) ↔
      ReadAsTyped userInit.name (spaced.chars.splitOn 10)[0]? ∧ ReadAsTyped userInit.host (spaced.chars.splitOn 10)[1]?) := by
  obtain ⟨s, reached, found⟩ := config_written spaced (by decide)
  exact ⟨s, reached, user_load_reads_as_typed_iff reached.valid found spaced.terminated userInit⟩

/-- A line that `user` would refuse is taken as the user's name. -/
theorem user_load_accepts_spaced : ¬ ∀ (u names : Users) (s : Fish) (content : List UInt8), Reached s →
    s.entries [configFile] = some (.file content) → 0 ∉ content → userLoad u s = .ok (true, names, s) →
    names = u.typed (content.splitOn 10) := by
  intro all
  obtain ⟨s, reached, found⟩ := config_written spaced (by decide)
  have held : reached.valid.toSound.view.entries [configFile] = some (.file spaced.chars) := by rwa [Sound.view_entries]
  have same := all userInit _ s _ reached found spaced.terminated (reached.valid.userLoad_file held userInit)
  rw [List.splitOn_eq_singleton (by decide)] at same
  have names := congrArg (fun u => u.name.chars) same
  exact absurd names (by decide)

end Typing

end Seaweed
