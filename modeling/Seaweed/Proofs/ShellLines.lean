import Seaweed.Proofs.ShellCommands

/-! The commands that reach the disk or the names, and with them every line that can be
typed: `execute` is `ShellState.line`, and its one fault is the number that `color` cannot hold. -/

namespace Seaweed
open Library

variable {t : ShellState} {m : Machine Drive} {arg : CString} {s : Fish} {tree : FileTree}

section Disk

theorem fishSave_absent {d : Drive} (absent : d.present = false) (s : Fish) : fishSave drive s d = (.nodisk, d) := by
  have here : drive.present d = false := absent
  simp [fishSave, here]

theorem fishLoad_absent {d : Drive} (absent : d.present = false) (s : Fish) : fishLoad drive s d = (.nodisk, s, d) := by
  have here : drive.present d = false := absent
  simp [fishLoad, here]

/-- A save keeps the tree on the disk when there is one. -/
theorem ShellState.Stands.saves (stands : t.Stands m) (becomes : s.Stands tree) :
    ∃ result d, fishSave drive s m.disk = (result, d) ∧ (t.save tree).Stands { m with fish := s, disk := d } := by
  have present := stands.present
  have disk := stands.disk
  cases attached : t.attached with
  | false =>
    rw [attached] at present
    refine ⟨_, _, fishSave_absent present s, stands.users, stands.accepted, becomes, ?_, stands.present⟩
    simp only [ShellState.save, attached, Bool.false_eq_true, if_false]
    rwa [attached] at disk
  | true =>
    rw [attached] at present disk
    obtain ⟨done, carries⟩ := disk.fishSave present becomes
    refine ⟨_, _, done, stands.users, stands.accepted, becomes, ?_, ?_⟩
    · simp only [ShellState.save, attached, if_true]
      exact carries
    · exact present.trans attached.symm

theorem ShellState.Stands.cmdSave (stands : t.Stands m) :
    ∃ out s d, cmdSave drive m.users m.fish m.disk = .ok (out, s, d) ∧
      (t.save (t.tree.keepNames t.users)).Stands { m with fish := s, disk := d } := by
  obtain ⟨kept, s, named, tree⟩ := stands.tree.userSave m.users
  rw [stands.users] at tree
  obtain ⟨result, d, saved, stands'⟩ := stands.saves tree
  rw [Seaweed.cmdSave, named, ok_bind]
  simp only [saved]
  split
  · exact ⟨_, s, d, rfl, stands'⟩
  · exact ⟨_, s, d, rfl, stands'⟩

theorem ShellState.Stands.cmdFormat (stands : t.Stands m) :
    ∃ out d, cmdFormat drive m.disk = (out, fishInit, d) ∧ Quiet out ∧
      (t.save .bare).Stands { m with fish := fishInit, disk := d } := by
  obtain ⟨result, d, saved, stands'⟩ := stands.saves fishInit_stands
  simp only [Seaweed.cmdFormat, saved]
  split
  · exact ⟨_, d, rfl, failed_quiet _ _, stands'⟩
  · exact ⟨_, d, rfl, by simp [Event.ends], stands'⟩

/-- A load brings the tree of the image back, or says why not. -/
theorem ShellState.Stands.loads (stands : t.Stands m) :
    ∃ result s d, fishLoad drive m.fish m.disk = (result, s, d) ∧ t.load.Stands { m with fish := s, disk := d } := by
  have present := stands.present
  have disk := stands.disk
  cases attached : t.attached with
  | false =>
    rw [attached] at present
    have same : t.load = t := by simp [ShellState.load, attached]
    rw [same]
    exact ⟨_, _, _, fishLoad_absent present m.fish, stands⟩
  | true =>
    rw [attached] at present disk
    obtain ⟨n, outcome⟩ := disk.fishLoad present m.fish
    have later := disk.later n
    rcases outcome with ⟨image, done⟩ | ⟨image, done⟩ | ⟨tree, image, done, loaded⟩
    · have same : t.load = t := by simp [ShellState.load, attached, image]
      rw [same]
      refine ⟨_, _, _, done, stands.users, stands.accepted, stands.tree, ?_, stands.present⟩
      rwa [attached]
    · have cleared : t.load = { t with tree := .bare } := by simp [ShellState.load, attached, image]
      rw [cleared]
      refine ⟨_, _, _, done, stands.users, stands.accepted, fishInit_stands, ?_, stands.present⟩
      simp only [attached]
      exact later
    · have restored : t.load = { t with tree := tree } := by simp [ShellState.load, attached, image]
      rw [restored]
      refine ⟨_, _, _, done, stands.users, stands.accepted, loaded, ?_, stands.present⟩
      simp only [attached]
      exact later

theorem ShellState.Stands.cmdLoad (stands : t.Stands m) :
    ∃ out s d, cmdLoad drive m.fish m.disk = (out, s, d) ∧ t.load.Stands { m with fish := s, disk := d } := by
  obtain ⟨result, s, d, loaded, stands'⟩ := stands.loads
  simp only [Seaweed.cmdLoad, loaded]
  split
  · exact ⟨_, s, d, rfl, stands'⟩
  · exact ⟨_, s, d, rfl, stands'⟩

end Disk

section Names

theorem setField_refused {field name : UserName} (refused : setField field arg = (false, name)) : name = field := by
  rw [setField_eq] at refused
  split at refused
  · cases refused
  · exact (Prod.mk.inj refused).2.symm

theorem userSetName_refused {u after : Users} (refused : userSetName u arg = (false, after)) : u = after := by
  cases set : setField u.name arg with
  | mk accepted field =>
    simp only [userSetName, set] at refused
    obtain ⟨rfl, rfl⟩ := Prod.mk.inj refused
    rw [setField_refused set]

theorem userSetHost_refused {u after : Users} (refused : userSetHost u arg = (false, after)) : u = after := by
  cases set : setField u.host arg with
  | mk accepted field =>
    simp only [userSetHost, set] at refused
    obtain ⟨rfl, rfl⟩ := Prod.mk.inj refused
    rw [setField_refused set]

/-- A session with other names and another tree. -/
theorem ShellState.Stands.renamed (stands : t.Stands m) {u : Users} (kept : u.Accepted) (becomes : s.Stands tree) :
    ShellState.Stands { t with users := u, tree := tree } { m with users := u, fish := s } where
  users := rfl
  accepted := kept
  tree := becomes
  disk := stands.disk
  present := stands.present

/-- The names and the tree after `user` or `hostname` was given a word. -/
theorem ShellState.Stands.rename (stands : t.Stands m) {set : Users → CString → Bool × Users}
    (accepts : ∀ u : Users, u.Accepted → (set u arg).2.Accepted) (given : arg.chars ≠ []) :
    (∃ u, set m.users arg = (false, u) ∧ t.rename arg set = t) ∨
    ∃ u kept s, set m.users arg = (true, u) ∧ userSave u m.fish = .ok (kept, s) ∧
      (t.rename arg set).Stands { m with users := u, fish := s } := by
  have kept := accepts t.users stands.accepted
  cases renamed : set m.users arg with
  | mk accepted u =>
    have again := renamed
    rw [stands.users] at again
    cases accepted with
    | false =>
      refine .inl ⟨u, rfl, ?_⟩
      simp only [ShellState.rename, if_neg given, again]
    | true =>
      obtain ⟨stored, s, named, tree⟩ := stands.tree.userSave u
      have result : t.rename arg set = { t with users := u, tree := t.tree.keepNames u } := by
        simp only [ShellState.rename, if_neg given, again]
      rw [again] at kept
      refine .inr ⟨u, stored, s, rfl, named, ?_⟩
      rw [result]
      exact stands.renamed kept tree

theorem ShellState.Stands.cmdUser (stands : t.Stands m) (arg : CString) :
    ∃ out u s, cmdUser arg m.users m.fish = .ok (out, u, s) ∧ Quiet out ∧
      (t.rename arg userSetName).Stands { m with users := u, fish := s } := by
  rw [Seaweed.cmdUser]
  split
  next empty =>
    have same : t.rename arg userSetName = t := if_pos empty
    rw [same]
    exact ⟨_, m.users, m.fish, rfl, by simp [Event.ends], stands⟩
  next given =>
    have accepts : ∀ u : Users, u.Accepted → (userSetName u arg).2.Accepted :=
      fun u accepted => ⟨setField_accepted accepted.1 arg, accepted.2⟩
    rcases stands.rename accepts given with ⟨u, refused, same⟩ | ⟨u, kept, s, set, saved, stands'⟩
    · obtain rfl := userSetName_refused refused
      rw [refused, same]
      exact ⟨_, m.users, m.fish, rfl, by simp [Event.ends], stands⟩
    · rw [set]
      simp only [saved]
      exact ⟨_, u, s, rfl, quiet_nil, stands'⟩

theorem ShellState.Stands.cmdHostname (stands : t.Stands m) (arg : CString) :
    ∃ out u s, cmdHostname arg m.users m.fish = .ok (out, u, s) ∧ Quiet out ∧
      (t.rename arg userSetHost).Stands { m with users := u, fish := s } := by
  rw [Seaweed.cmdHostname]
  split
  next empty =>
    have same : t.rename arg userSetHost = t := if_pos empty
    rw [same]
    exact ⟨_, m.users, m.fish, rfl, by simp [newline, Event.ends], stands⟩
  next given =>
    have accepts : ∀ u : Users, u.Accepted → (userSetHost u arg).2.Accepted :=
      fun u accepted => ⟨accepted.1, setField_accepted accepted.2 arg⟩
    rcases stands.rename accepts given with ⟨u, refused, same⟩ | ⟨u, kept, s, set, saved, stands'⟩
    · obtain rfl := userSetHost_refused refused
      rw [refused, same]
      exact ⟨_, m.users, m.fish, rfl, by simp [Event.ends], stands⟩
    · rw [set]
      simp only [saved]
      exact ⟨_, u, s, rfl, quiet_nil, stands'⟩

end Names

section Lines

/-- The commands after which the shell does not come back. -/
def CommandFn.final (fn : CommandFn) : Bool := decide (fn = .reboot ∨ fn = .halt)

theorem Quiet.any {out : List Event} (quiet : Quiet out) : out.any Event.ends = false := by
  rw [List.any_eq_false]
  intro event member ends
  rw [quiet event member] at ends
  cases ends

/-- A command that has an outcome does to the machine what it means for the session. -/
theorem ShellState.Stands.call (stands : t.Stands m) (trimmed : arg.chars.dropWhile (· = 32) = arg.chars)
    (short : arg.chars.length ≤ 256) (fn : CommandFn) (fits : ¬ (fn = .color ∧ Overflows arg)) :
    ∃ out after, fn.call drive arg m = .ok (out, after) ∧ out.any Event.ends = fn.final ∧ (t.run arg fn).Stands after := by
  have tree := stands.tree
  have view := tree.view
  have valid := tree.valid
  by_cases looks : fn.looks = true
  · obtain ⟨out, done, quiet⟩ := stands.looks looks fun color large => fits ⟨color, large⟩
    have same : t.run arg fn = t := by cases fn <;> cases looks <;> rfl
    have more : fn.final = false := by cases fn <;> cases looks <;> rfl
    rw [same, more]
    exact ⟨out, m, done, quiet.any, stands⟩
  -- The commands on the tree alone.
  have wrap : ∀ {result : Ran (List Event × Fish)} {tree : FileTree},
      (∃ out after, result = .ok (out, after) ∧ Quiet out ∧ after.Stands tree) →
      ∃ out after, (result >>= fun answer => Except.ok (answer.1, { m with fish := answer.2 }) : Ran (List Event × Machine Drive)) =
        .ok (out, after) ∧ out.any Event.ends = false ∧ ShellState.Stands { t with tree := tree } after := by
    rintro _ tree ⟨out, after, rfl, quiet, becomes⟩
    exact ⟨out, _, rfl, quiet.any, stands.grown becomes⟩
  cases fn with
  | cd => exact wrap (cmdCd_stands tree arg)
  | mkdir =>
    have refines : Refines (fishMkdir m.fish arg) (t.tree.mkdir arg) := view ▸ valid.fishMkdir_refines arg
    refine wrap (nameCommand_stands refines ?_ _ _)
    intro empty
    rw [FileTree.mkdir, t.tree.add_empty empty]
    exact tree
  | touch =>
    have refines : Refines (fishCreate m.fish arg) (t.tree.create arg) := view ▸ valid.fishCreate_refines arg
    refine wrap (nameCommand_stands refines ?_ _ _)
    intro empty
    rw [FileTree.create, t.tree.add_empty empty]
    exact tree
  | rm =>
    have refines : Refines (fishRemove m.fish arg) (t.tree.remove arg) := view ▸ valid.fishRemove_refines arg
    refine wrap (nameCommand_stands refines ?_ _ _)
    intro empty
    rw [t.tree.remove_empty empty]
    exact tree
  | write => exact wrap (writeCommon_stands tree trimmed short false)
  | append => exact wrap (writeCommon_stands tree trimmed short true)
  | save =>
    obtain ⟨out, s, d, done, stands'⟩ := stands.cmdSave
    refine ⟨_, _, ?_, (writes_quiet out).any, stands'⟩
    rw [CommandFn.call, done]
    rfl
  | load =>
    obtain ⟨out, s, d, done, stands'⟩ := stands.cmdLoad
    refine ⟨_, _, ?_, (writes_quiet out).any, stands'⟩
    simp only [CommandFn.call, done]
  | format =>
    obtain ⟨out, d, done, quiet, stands'⟩ := stands.cmdFormat
    refine ⟨out, _, ?_, quiet.any, stands'⟩
    simp only [CommandFn.call, done]
  | user =>
    obtain ⟨out, u, s, done, quiet, stands'⟩ := stands.cmdUser arg
    refine ⟨out, _, ?_, quiet.any, stands'⟩
    rw [CommandFn.call, done]
    rfl
  | hostname =>
    obtain ⟨out, u, s, done, quiet, stands'⟩ := stands.cmdHostname arg
    refine ⟨out, _, ?_, quiet.any, stands'⟩
    rw [CommandFn.call, done]
    rfl
  | reboot => exact ⟨_, m, rfl, rfl, stands⟩
  | halt => exact ⟨_, m, rfl, rfl, stands⟩
  | _ => exact absurd rfl looks

variable {text : List UInt8}

/-- A line that has an outcome is executed to it. -/
theorem ShellState.Stands.execute (stands : t.Stands m) (terminated : 0 ∈ text)
    (short : (CString.ofBytes text).chars.length ≤ 256) {next : ShellState} {ended : Bool}
    (meant : t.line (CString.ofBytes text) = some (next, ended)) :
    ∃ out after, Seaweed.execute drive text m = .ok (out, after) ∧ out.any Event.ends = ended ∧ next.Stands after := by
  rw [execute_eq drive m terminated]
  unfold ShellState.line at meant
  split at meant
  next empty =>
    cases meant
    rw [if_pos empty]
    exact ⟨[], m, rfl, rfl, stands⟩
  next some =>
    rw [if_neg some]
    cases found : commands.find? fun row => (CString.ofBytes text).firstWord = literal row.name with
    | none =>
      simp only [found] at meant
      cases meant
      exact ⟨_, m, rfl, rfl, stands⟩
    | some row =>
      simp only [found] at meant
      split at meant
      next => cases meant
      next fits =>
        cases meant
        have room := (CString.afterWord_length (CString.ofBytes text)).trans short
        exact stands.call (CString.afterWord_trimmed _) room row.run fits

/-- A line without an outcome is one that makes `color` overflow. -/
theorem ShellState.Stands.execute_wrong (terminated : 0 ∈ text) (meant : t.line (CString.ofBytes text) = none) :
    Seaweed.execute drive text m = .error .overflow := by
  rw [execute_eq drive m terminated]
  unfold ShellState.line at meant
  split at meant
  next => cases meant
  next some =>
    rw [if_neg some]
    cases found : commands.find? fun row => (CString.ofBytes text).firstWord = literal row.name with
    | none =>
      simp only [found] at meant
      cases meant
    | some row =>
      simp only [found] at meant
      split at meant
      next large =>
        have wrong := cmdColor_wrong large.2
        simp only [large.1, CommandFn.call, wrong]
        rfl
      next => cases meant

end Lines
end Seaweed
