import Seaweed.Proofs.CommandTexts
import Seaweed.Proofs.ShellFiles

/-! Every command does to the machine what it means for the session, and only `reboot` and
`halt` end the shell. -/

namespace Seaweed
open Library

variable {t : ShellState} {m : Machine Drive} {arg : CString} {s : Fish} {tree : FileTree}

/-- Writes that let the shell go on. -/
def Quiet (out : List Event) : Prop := ∀ event ∈ out, event.ends = false

section Quiet

variable {out more : List Event} {event : Event}

@[simp] theorem quiet_nil : Quiet [] := fun _ member => by cases member

@[simp] theorem quiet_cons : Quiet (event :: out) ↔ event.ends = false ∧ Quiet out := List.forall_mem_cons

@[simp] theorem quiet_append : Quiet (out ++ more) ↔ Quiet out ∧ Quiet more := List.forall_mem_append

theorem writes_quiet (texts : List String) : Quiet (texts.map .write) := by
  intro event member
  obtain ⟨text, _, rfl⟩ := List.mem_map.mp member
  rfl

theorem failed_quiet (cmd : String) (code : FishCode) : Quiet (failed cmd code) := writes_quiet _

/-- What a command writes when its call of Fish may fail. -/
theorem answer_quiet (cmd : String) (code : FishCode) : Quiet (if code.value < 0 then failed cmd code else []) := by
  split
  · exact failed_quiet cmd code
  · exact quiet_nil

theorem unitText_quiet (value : UInt32) (word : String) : Quiet (unitText value word) := by
  unfold unitText
  split <;> simp [Event.ends]

theorem uptimeText_quiet (total : UInt32) : Quiet (uptimeText total) := by
  have units : ∀ (value : UInt32) (word : String), Quiet (unitsText value word) := by
    intro value word
    unfold unitsText
    split
    · simp [unitText_quiet, Event.ends]
    · exact quiet_nil
  simp [uptimeText, units, unitText_quiet, newline, Event.ends]

theorem Fish.line_quiet (s : Fish) (i : Fin fishMaxNodes) : Quiet (s.line i) := by
  unfold Fish.line
  split <;> simp [newline, Event.ends]

theorem Sound.cmdLs_quiet (sound : Sound s) : ∃ out, cmdLs s = .ok out ∧ Quiet out := by
  refine ⟨_, sound.cmdLs_eq, ?_⟩
  have lines : ∀ slots : List (Fin fishMaxNodes), Quiet ((slots.map s.line).flatten) := by
    intro slots event member
    obtain ⟨line, among, here⟩ := List.mem_flatten.mp member
    obtain ⟨i, _, rfl⟩ := List.mem_map.mp among
    exact s.line_quiet i event here
  rw [quiet_append, quiet_append]
  refine ⟨⟨lines _, by simp [Event.ends]⟩, ?_⟩
  split <;> simp [Event.ends]

theorem cmdCat_quiet (valid : Valid s) (arg : CString) : ∃ out, cmdCat arg s = .ok out ∧ Quiet out := by
  refine ⟨_, valid.cmdCat_eq arg, ?_⟩
  split
  · simp [Event.ends]
  · cases valid.toSound.view.read arg with
    | none => simp [Event.ends]
    | some content =>
      simp only [Option.elim_some, shownText]
      split <;> simp [newline, Event.ends]

theorem helpPage_quiet (page : UInt32) : ∃ out, helpPage page = .ok out ∧ Quiet out := by
  refine ⟨_, by rw [helpPage, numeral_eq, numeral_eq]; rfl, ?_⟩
  have padded : ∀ name args : String, Quiet (writePadded name args) := by
    intro name args
    unfold writePadded
    split <;> simp [Event.ends]
  have rows : ∀ table : List Command,
      Quiet (table.flatMap fun row => writePadded row.name row.args ++ [.write row.help, newline]) := by
    intro table event member
    obtain ⟨row, _, here⟩ := List.mem_flatMap.mp member
    have line : Quiet (writePadded row.name row.args ++ [.write row.help, newline]) := by
      simp [padded, newline, Event.ends]
    exact line event here
  rw [quiet_append, quiet_append]
  refine ⟨⟨by simp [Event.ends], rows _⟩, ?_⟩
  split <;> simp [Event.ends]

theorem cmdHelp_quiet (arg : CString) : ∃ out, cmdHelp arg = .ok out ∧ Quiet out := by
  rw [cmdHelp]
  split
  · exact helpPage_quiet 1
  · split
    · exact ⟨_, rfl, by simp [Event.ends]⟩
    · split
      · exact ⟨_, rfl, by simp [Event.ends]⟩
      · exact helpPage_quiet _

theorem cmdSleep_quiet (arg : CString) : Quiet (cmdSleep arg) := by
  rw [cmdSleep]
  split
  · simp [Event.ends]
  · split
    · simp [Event.ends]
    · split <;> simp [Event.ends]

theorem cmdColor_quiet (fits : ¬ Overflows arg) : ∃ out, cmdColor arg = .ok out ∧ Quiet out := by
  rw [cmdColor]
  split
  · exact ⟨_, rfl, by simp [Event.ends]⟩
  · rw [signedFrom_zero, if_pos (not_not.mp fits), ok_bind]
    split
    · exact ⟨_, rfl, by simp [Event.ends]⟩
    · split
      · exact ⟨_, rfl, by simp [Event.ends]⟩
      · exact ⟨_, rfl, by simp [Event.ends]⟩

theorem cmdColor_wrong (large : Overflows arg) : cmdColor arg = .error .overflow := cmdColor_overflow large

end Quiet

/-- A command that shows something and leaves the machine as it is. -/
def CommandFn.looks : CommandFn → Bool
  | .help | .neofetch | .clear | .echo | .about | .ls | .pwd | .cat | .disk | .color | .whoami | .uptime | .ticks | .sleep => true
  | _ => false

section Looking

/-- Every one of them comes to an end, but for a number that `color` cannot hold. -/
theorem ShellState.Stands.looks (stands : t.Stands m) {fn : CommandFn} (looks : fn.looks = true)
    (fits : fn = .color → ¬ Overflows arg) : ∃ out, fn.call drive arg m = .ok (out, m) ∧ Quiet out := by
  have valid := stands.tree.valid
  have wrap : ∀ {result : Ran (List Event)}, (∃ out, result = .ok out ∧ Quiet out) →
      ∃ out, (result >>= fun out => Except.ok (out, m) : Ran (List Event × Machine Drive)) = .ok (out, m) ∧ Quiet out := by
    rintro _ ⟨out, rfl, quiet⟩
    exact ⟨out, rfl, quiet⟩
  cases fn with
  | help => exact wrap (cmdHelp_quiet arg)
  | neofetch => exact ⟨_, rfl, by simp [cmdNeofetch, Event.ends]⟩
  | clear => exact ⟨_, rfl, by simp [cmdClear, Event.ends]⟩
  | echo => exact ⟨_, rfl, by simp [cmdEcho, newline, Event.ends]⟩
  | about => exact ⟨_, rfl, by simp [cmdAbout, Event.ends]⟩
  | ls => exact wrap valid.toSound.cmdLs_quiet
  | pwd => exact wrap ⟨_, valid.toSound.cmdPwd_eq, by simp [newline, Event.ends]⟩
  | cat => exact wrap (cmdCat_quiet valid arg)
  | disk =>
    refine ⟨_, rfl, ?_⟩
    unfold cmdDisk
    split <;> simp [Event.ends]
  | color => exact wrap (cmdColor_quiet (fits rfl))
  | whoami => exact ⟨_, rfl, by simp [cmdWhoami, newline, Event.ends]⟩
  | uptime => exact wrap ⟨_, cmdUptime_eq m.ticks, uptimeText_quiet _⟩
  | ticks => exact wrap ⟨_, cmdTicks_eq m.ticks, by simp [Event.ends]⟩
  | sleep => exact ⟨_, rfl, cmdSleep_quiet arg⟩
  | _ => cases looks

end Looking

section Changing

/-- A session that differs from another in its tree only. -/
theorem ShellState.Stands.grown (stands : t.Stands m) (becomes : s.Stands tree) :
    ShellState.Stands { t with tree := tree } { m with fish := s } where
  users := stands.users
  accepted := stands.accepted
  tree := becomes
  disk := stands.disk
  present := stands.present

theorem nameCommand_stands {call : Fish → CString → Checked (FishCode × Fish)} {expected : FishCode × FileTree}
    (refines : Refines (call s arg) expected) (idle : arg.chars = [] → s.Stands expected.2) (cmd usage : String) :
    ∃ out after, nameCommand cmd usage call arg s = .ok (out, after) ∧ Quiet out ∧ after.Stands expected.2 := by
  rw [nameCommand]
  split
  next empty => exact ⟨_, s, rfl, by simp [Event.ends], idle empty⟩
  next =>
    obtain ⟨after, done, tree⟩ := refines.stands
    rw [done]
    exact ⟨_, after, rfl, answer_quiet cmd _, tree⟩

/-- No entry has the empty name. -/
theorem FileTree.look_empty (tree : FileTree) (empty : arg.chars = []) : ¬ Nameable arg ∧ tree.look arg = none := by
  have unnamed : ¬ Nameable arg := by
    intro named
    have positive := named.1.1
    rw [empty] at positive
    cases positive
  refine ⟨unnamed, ?_⟩
  by_contra taken
  exact unnamed (FileTree.look_named taken)

theorem FileTree.add_empty (tree : FileTree) (empty : arg.chars = []) (content : Content) : (tree.add arg content).2 = tree := by
  rw [FileTree.add, dif_neg (tree.look_empty empty).1]

theorem FileTree.remove_empty (tree : FileTree) (empty : arg.chars = []) : (tree.remove arg).2 = tree := by
  rw [FileTree.remove, if_pos (tree.look_empty empty).2]

theorem FileTree.edit_empty (tree : FileTree) (empty : arg.chars = []) (change : List UInt8 → List UInt8) :
    (tree.edit arg change).2 = tree := by
  have missing := (tree.look_empty empty).2
  unfold FileTree.edit
  split
  next => rfl
  next found => cases missing.symm.trans found
  next found => cases missing.symm.trans found

theorem cmdCd_stands (stands : s.Stands tree) (arg : CString) :
    ∃ out after, cmdCd arg s = .ok (out, after) ∧ Quiet out ∧
      after.Stands (if arg.chars = [] then tree.enter [] tree.top else (tree.chdir arg).2) := by
  have view := stands.view
  rw [cmdCd]
  split
  · obtain ⟨after, done, entered⟩ := (stands.valid.fishChdir_refines rootName).stands
    rw [view] at done entered
    rw [done]
    exact ⟨[], after, rfl, quiet_nil, entered⟩
  · obtain ⟨after, done, entered⟩ := (stands.valid.fishChdir_refines arg).stands
    rw [view] at done entered
    rw [done]
    exact ⟨_, after, rfl, answer_quiet "cd" _, entered⟩

/-- `write` and `append` act on the word and the text that they cut out. -/
theorem writeCommon_stands (stands : s.Stands tree) (trimmed : arg.chars.dropWhile (· = 32) = arg.chars)
    (short : arg.chars.length ≤ 256) (appending : Bool) :
    ∃ out after, writeCommon arg appending s = .ok (out, after) ∧ Quiet out ∧
      after.Stands (if appending then tree.append arg.cutWord arg.cutText.chars else tree.write arg.cutWord arg.cutText.chars).2 := by
  have view := stands.view
  by_cases empty : arg.chars = []
  · have nothing : arg.cutWord.chars = [] := by simp [CString.cutWord, CString.firstWord, empty]
    rw [writeCommon, if_pos empty]
    refine ⟨_, s, rfl, by simp [Event.ends], ?_⟩
    cases appending with
    | true =>
      simp only [if_true, FileTree.append, tree.edit_empty nothing]
      exact stands
    | false =>
      simp only [Bool.false_eq_true, if_false, FileTree.write, tree.edit_empty nothing]
      exact stands
  · have small := @cutText_length arg
    have refined : Refines (writeCall appending s arg.cutWord arg.cutText)
        (if appending then tree.append arg.cutWord arg.cutText.chars else tree.write arg.cutWord arg.cutText.chars) := by
      rw [← view]
      cases appending with
      | true => exact stands.valid.fishAppend_refines arg.cutWord ⟨arg.cutText, by omega⟩
      | false => exact stands.valid.fishWrite_refines arg.cutWord ⟨arg.cutText, by omega⟩
    obtain ⟨after, done, edited⟩ := refined.stands
    exact ⟨_, after, writeCommon_ok appending empty trimmed done, answer_quiet _ _, edited⟩

end Changing
end Seaweed
