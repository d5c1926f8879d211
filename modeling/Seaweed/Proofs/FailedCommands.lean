import Seaweed.Proofs.FileCommands

/-! What is left of the tree when a command that changes it reports a failure of Fish. Six
of the seven commands check before they change; `format` empties the tree first. -/

namespace Seaweed

variable {s : Fish} {arg : CString}

/-- What went to the screen is what `fish_fail` writes. -/
def Reports (out : List Event) : Prop := ∃ cmd code, out = failed cmd code

theorem not_reports {out : List Event} (short : out.length < 4) : ¬ Reports out := by
  rintro ⟨cmd, code, rfl⟩
  exact absurd short (by simp [failed, fishFail])

section Clean

/-- A command that leaves the tree alone when it reports. -/
def Clean (s : Fish) (result : Ran (List Event × Fish)) : Prop :=
  ∃ out after, result = .ok (out, after) ∧ (Reports out → after = s)

theorem Clean.usage (text : String) : Clean s (.ok ([.write text], s)) := ⟨_, s, rfl, fun _ => rfl⟩

theorem Clean.answer {cmd : String} {code : FishCode} {after : Fish} (kept : code ≠ .ok → after = s) :
    Clean s (.ok (if code.value < 0 then failed cmd code else [], after)) := by
  refine ⟨_, after, rfl, ?_⟩
  split
  next negative => exact fun _ => kept (code.value_neg_iff.mp negative)
  next => exact fun reports => absurd reports (not_reports (by decide))

theorem nameCommand_clean {call : Fish → CString → Checked (FishCode × Fish)} (edits : Edits s (call s arg))
    (cmd usage : String) : Clean s (nameCommand cmd usage call arg s) := by
  rw [nameCommand]
  split
  · exact .usage usage
  · obtain ⟨code, after, done, _, kept⟩ := edits
    rw [done]
    exact .answer kept

theorem cmdCd_clean (sound : Sound s) : Clean s (cmdCd arg s) := by
  rw [cmdCd]
  split
  · obtain ⟨code, d, done, _, _, _⟩ := sound.fishChdir_moves rootName
    rw [done]
    exact ⟨[], _, rfl, fun reports => absurd reports (not_reports (by decide))⟩
  · obtain ⟨code, d, done, _, _, stays⟩ := sound.fishChdir_moves arg
    rw [done]
    exact .answer fun failure => by rw [← stays failure]

theorem writeCommon_clean (sound : Sound s) (trimmed : arg.chars.dropWhile (· = 32) = arg.chars)
    (short : arg.chars.length ≤ 256) (appending : Bool) : Clean s (writeCommon arg appending s) := by
  by_cases empty : arg.chars = []
  · rw [writeCommon, if_pos empty]
    exact .usage _
  · let text : Text := ⟨arg.cutText, by have := @cutText_length arg; omega⟩
    obtain ⟨code, after, done, _, kept⟩ := sound.writeCall_edits appending arg.cutWord text
    rw [writeCommon_ok appending empty trimmed done]
    exact .answer kept

/-- The commands that make one call of Fish. -/
def CommandFn.single : CommandFn → Bool
  | .cd | .mkdir | .touch | .rm | .write | .append => true
  | _ => false

theorem CommandFn.call_clean {σ : Type} (ata : Ata σ) {m : Machine σ} (sound : Sound m.fish)
    (trimmed : arg.chars.dropWhile (· = 32) = arg.chars) (short : arg.chars.length ≤ 256) {fn : CommandFn}
    (single : fn.single = true) :
    ∃ out after, fn.call ata arg m = .ok (out, { m with fish := after }) ∧ (Reports out → after = m.fish) := by
  have wrap : ∀ {result : Ran (List Event × Fish)}, Clean m.fish result →
      ∃ out after, (result >>= fun answer => Except.ok (answer.1, { m with fish := answer.2 }) : Ran (List Event × Machine σ)) =
        .ok (out, { m with fish := after }) ∧ (Reports out → after = m.fish) := by
    rintro _ ⟨out, after, rfl, kept⟩
    exact ⟨out, after, rfl, kept⟩
  cases fn with
  | cd => exact wrap (cmdCd_clean sound)
  | mkdir => exact wrap (nameCommand_clean (sound.fishMkdir_edits arg) _ _)
  | touch => exact wrap (nameCommand_clean (sound.fishCreate_edits arg) _ _)
  | rm => exact wrap (nameCommand_clean (sound.fishRemove_edits arg) _ _)
  | write => exact wrap (writeCommon_clean sound trimmed short false)
  | append => exact wrap (writeCommon_clean sound trimmed short true)
  | _ => cases single

end Clean

section Format

theorem fishInit_entries {p : Path} (inner : p ≠ []) : fishInit.entries p = none := by
  by_contra holds
  have member : p ∈ occupied fishInit.entries := ⟨inner, holds⟩
  rw [fishInit_valid.toSound.occupied_eq] at member
  obtain ⟨i, ⟨other, used⟩, _⟩ := member
  exact other (fishInit_used.mp used)

/-- The tree as its user sees it. -/
def Unchanged (s after : Fish) : Prop := after.entries = s.entries ∧ after.cwdPath = s.cwdPath

theorem Sound.unchanged_init (sound : Sound s) : Unchanged s fishInit ↔ ∀ p, p ≠ [] → s.entries p = none := by
  have root : fishInit_valid.toSound.view.entries [] = sound.view.entries [] :=
    fishInit_valid.toSound.view.top.trans sound.view.top.symm
  rw [Sound.view_entries, Sound.view_entries] at root
  constructor
  · rintro ⟨entries, _⟩ p inner
    rw [← entries]
    exact fishInit_entries inner
  · intro bare
    have only : ∀ {t : Fish}, Sound t → (∀ p, p ≠ [] → t.entries p = none) → t.cwdPath = [] := by
      intro t sound bare
      by_contra inner
      have here := sound.view.here
      rw [sound.view_entries, sound.view_cwd, bare _ inner] at here
      cases here
    refine ⟨funext fun p => ?_, ?_⟩
    · by_cases top : p = []
      · rw [top, root]
      · rw [fishInit_entries top, bare p top]
    · rw [only sound bare, only fishInit_valid.toSound fun p => fishInit_entries]

/-- `format` reports exactly when the save fails, and the tree is empty by then. -/
theorem cmdFormat_cases (d : Drive) :
    (d.present = true ∧ d.Fine 71 ∧ ∃ out d', cmdFormat drive d = (out, fishInit, d') ∧ ¬ Reports out) ∨
    (¬ (d.present = true ∧ d.Fine 71) ∧ ∃ out d', cmdFormat drive d = (out, fishInit, d') ∧ Reports out) := by
  rcases fishSave_cases fishInit d with ⟨absent, done⟩ | ⟨present, fine, done⟩ | ⟨_, n, inside, _, fault, done⟩
  · refine .inr ⟨by simp [absent], _, d, ?_, "format", .nodisk, rfl⟩
    rw [cmdFormat, done]
    rfl
  · refine .inl ⟨present, fine, [.write "Filesystem erased and written to disk.\n"], d.saved fishInit 71, ?_, not_reports (by decide)⟩
    rw [cmdFormat, done]
    rfl
  · refine .inr ⟨fun both => ?_, _, (d.saved fishInit n).tick, ?_, "format", .io, rfl⟩
    · rw [both.2 n inside] at fault
      cases fault
    · rw [cmdFormat, done]
      rfl

end Format

section Lines

variable {m : Machine Drive} {line : Buffer lineMax}

/-- The commands that change the tree and may report a failure of Fish. -/
def treeWords : List String := ["cd", "mkdir", "touch", "rm", "write", "append", "format"]

theorem treeWords_single : ∀ word ∈ treeWords, word ≠ "format" →
    ∃ row ∈ commands, row.name = word ∧ row.run.single = true := by
  decide

/-- The line runs, and if it reports a failure the tree is as it was. -/
def LeavesTree (line : Buffer lineMax) (m : Machine Drive) : Prop :=
  ∃ out after, execute drive line.bytes m = .ok (out, after) ∧ (Reports out → Unchanged m.fish after.fish)

theorem format_line (ended : 0 ∈ line.bytes) (command : (CString.ofBytes line.bytes).firstWord = literal "format") :
    LeavesTree line m ↔ (m.disk.present = true ∧ m.disk.Fine 71) ∨ Unchanged m.fish fishInit := by
  have ran : execute drive line.bytes m = CommandFn.call drive _ m .format := execute_word drive m ended (by decide) command
  rw [LeavesTree, ran, CommandFn.call]
  rcases cmdFormat_cases m.disk with ⟨present, fine, out, d, done, silent⟩ | ⟨faulty, out, d, done, reports⟩
  · rw [done]
    exact ⟨fun _ => .inl ⟨present, fine⟩, fun _ => ⟨_, _, rfl, fun reports => absurd reports silent⟩⟩
  · rw [done, or_iff_right faulty]
    constructor
    · rintro ⟨_, _, same, kept⟩
      obtain ⟨rfl, rfl⟩ := Prod.mk.inj (Except.ok.inj same)
      exact kept reports
    · exact fun same => ⟨_, _, rfl, fun _ => same⟩

/-- Only a `format` whose save fails takes the tree with it. -/
theorem failed_command_changes_nothing_iff (reached : Reached m.fish) (ended : 0 ∈ line.bytes) {word : String}
    (listed : word ∈ treeWords) (command : (CString.ofBytes line.bytes).firstWord = literal word) :
    LeavesTree line m ↔
      word ≠ "format" ∨ (m.disk.present = true ∧ m.disk.Fine 71) ∨ ∀ p, p ≠ [] → m.fish.entries p = none := by
  have sound := reached.valid.toSound
  by_cases format : word = "format"
  · subst format
    rw [format_line ended command, sound.unchanged_init, or_iff_right (not_not.mpr rfl)]
  · obtain ⟨row, member, rfl, single⟩ := treeWords_single word listed format
    have room := (CString.afterWord_length _).trans (line_short line)
    obtain ⟨out, after, done, kept⟩ := CommandFn.call_clean drive sound (CString.afterWord_trimmed _) room single
    refine ⟨fun _ => .inl format, fun _ => ⟨out, { m with fish := after }, ?_, fun reports => ?_⟩⟩
    · rw [execute_word drive m ended ⟨row, member, rfl, rfl⟩ command, done]
    · rw [kept reports]
      exact ⟨rfl, rfl⟩

theorem failed_command_changes_nothing_of_rm : LeavesTree (lineOf "rm nothing") (atShell fishInit) :=
  (failed_command_changes_nothing_iff (m := atShell fishInit) ⟨[], rfl⟩ (by decide +kernel)
    (by decide : "rm" ∈ treeWords) (by decide +kernel)).mpr (.inl (by decide))

/-- Without a disk, `format` says so after it has emptied the tree. -/
theorem failed_format_changes_tree : ¬ ∀ (m : Machine Drive) (line : Buffer lineMax) (word : String), Reached m.fish →
    0 ∈ line.bytes → word ∈ treeWords → (CString.ofBytes line.bytes).firstWord = literal word → LeavesTree line m := by
  intro all
  obtain ⟨s, ran, valid⟩ := run_valid [longest] fishInit_valid
  have ended : 0 ∈ (lineOf "format").bytes := by decide +kernel
  have command : (CString.ofBytes (lineOf "format").bytes).firstWord = literal "format" := by decide +kernel
  have leaves := all (atShell s) (lineOf "format") "format" ⟨_, ran⟩ ended (by decide) command
  have same := ((format_line ended command).mp leaves).resolve_left fun both => Bool.false_ne_true both.1
  have bare := valid.toSound.unchanged_init.mp same
  have used : (runCalls fishInit [longest]).toOption.map (fun s => decide (s.Used 1)) = some true := by
    rfl
  rw [ran] at used
  have live : s.Used 1 := by simpa [Except.toOption] using used
  have path := valid.toSound.rooted.pathOf_path live
  refine Fish.entries_ne_none.mpr ⟨1, path⟩ (bare _ fun top => ?_)
  rw [top] at path
  exact absurd (path.inj valid.toSound.rooted .root) (by decide)

end Lines

end Seaweed
