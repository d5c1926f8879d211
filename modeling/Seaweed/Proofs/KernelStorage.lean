import Seaweed.Proofs.KernelRefinement
import Seaweed.Proofs.UserIdentity

/-! What the disk keeps for the next start: the tree of the last `save` or `format`, through
every order of interrupts, turns, commands and starts in between. -/

namespace Seaweed
open Library

variable {k : Kernel Drive} {c : Computer} {t : ShellState} {held : List UInt8} {s : LineInput}

section Lines

/-- The line that the next turn of the loop gives to the shell. -/
def Kernel.entered {σ : Type} (k : Kernel σ) : Option CString :=
  if k.stopped then none
  else
    match keyboardGetchar k.keyboard with
    | some (key, _) => if key = 10 then some (CString.ofBytes (k.input.line.bytes.take k.input.length)) else none
    | none => none

/-- The next turn executes a command that writes the files to the disk. -/
def Kernel.Stores {σ : Type} (k : Kernel σ) : Prop :=
  ∃ line, k.entered = some line ∧ (line.firstWord = literal "save" ∨ line.firstWord = literal "format")

theorem Typed.taken (typed : Typed held s) : s.line.bytes.take s.length = held := by
  obtain ⟨v, n, editing⟩ := typed.editing
  have length := editing.length
  have short := editing.short
  apply List.ext_getElem
  · rw [List.length_take, Buffer.bytes_length, length]
    simp only [lineMax]
    omega
  · intro i low early
    simp only [List.getElem_take, Buffer.bytes, List.getElem_ofFn]
    exact editing.line i _ held[i] (List.getElem?_eq_getElem early)

theorem Computer.Stands.entered (stands : c.Stands k) : k.entered = c.ready := by
  unfold Kernel.entered Computer.ready
  rw [stands.stopped]
  by_cases running : c.stopped = false
  · have waits := stands.waits running
    rw [(stands.typed running).taken, if_neg (by rw [running]; exact Bool.false_ne_true)]
    cases waiting : c.waiting with
    | nil =>
      rw [waiting] at waits
      rw [waits.getchar_none, if_neg (fun ready => by cases ready.2)]
      exact if_neg (by decide)
    | cons key rest =>
      rw [waiting] at waits
      obtain ⟨keyboard, got, _, _⟩ := waits.getchar_some
      rw [got]
      simp only [running, List.head?_cons, Option.some.injEq, true_and]
  · rw [if_pos (Bool.not_eq_false _ ▸ running), if_neg fun ready => running ready.1]

end Lines

section Images

theorem commands_storing : ∀ row ∈ commands, (row.run = .save → row.name = "save") ∧ (row.run = .format → row.name = "format") := by
  decide

theorem ShellState.rename_kept (t : ShellState) (arg : CString) (set : Users → CString → Bool × Users) :
    (t.rename arg set).image = t.image ∧ (t.rename arg set).attached = t.attached := by
  unfold ShellState.rename
  split
  · exact ⟨rfl, rfl⟩
  · split <;> exact ⟨rfl, rfl⟩

theorem ShellState.load_kept (t : ShellState) : t.load.image = t.image ∧ t.load.attached = t.attached := by
  unfold ShellState.load
  split <;> exact ⟨rfl, rfl⟩

theorem ShellState.save_attached (t : ShellState) (tree : FileTree) : (t.save tree).attached = t.attached := rfl

theorem ShellState.save_users (t : ShellState) (tree : FileTree) : (t.save tree).users = t.users := rfl

theorem ShellState.save_tree (t : ShellState) (tree : FileTree) : (t.save tree).tree = tree := rfl

theorem ShellState.save_image (attached : t.attached = true) (tree : FileTree) : (t.save tree).image = .tree tree := if_pos attached

theorem ShellState.run_image {fn : CommandFn} (other : fn ≠ .save ∧ fn ≠ .format) (arg : CString) :
    (t.run arg fn).image = t.image := by
  cases fn with
  | save => exact absurd rfl other.1
  | format => exact absurd rfl other.2
  | user => exact (t.rename_kept arg _).1
  | hostname => exact (t.rename_kept arg _).1
  | load => exact t.load_kept.1
  | _ => rfl

theorem ShellState.run_attached (t : ShellState) (fn : CommandFn) (arg : CString) : (t.run arg fn).attached = t.attached := by
  cases fn with
  | save => exact t.save_attached _
  | format => exact t.save_attached _
  | user => exact (t.rename_kept arg _).2
  | hostname => exact (t.rename_kept arg _).2
  | load => exact t.load_kept.2
  | _ => rfl

/-- The disk stays where it is, and only the two commands that write change what it holds. -/
theorem ShellState.line_kept {text : CString} {next : ShellState} {ended : Bool} (meant : t.line text = some (next, ended)) :
    next.attached = t.attached ∧
      (text.firstWord ≠ literal "save" → text.firstWord ≠ literal "format" → next.image = t.image) := by
  unfold ShellState.line at meant
  split at meant
  next =>
    cases meant
    exact ⟨rfl, fun _ _ => rfl⟩
  next =>
    cases found : commands.find? fun row => text.firstWord = literal row.name with
    | none =>
      simp only [found] at meant
      cases meant
      exact ⟨rfl, fun _ _ => rfl⟩
    | some row =>
      simp only [found] at meant
      split at meant
      next => cases meant
      next =>
        cases meant
        have named : text.firstWord = literal row.name := by simpa using List.find?_some found
        have storing := commands_storing row (List.mem_of_find?_eq_some found)
        refine ⟨ShellState.run_attached _ _ _, fun unsaved unformatted => ShellState.run_image ⟨?_, ?_⟩ _⟩
        · exact fun save => unsaved (by rw [named, storing.1 save])
        · exact fun format => unformatted (by rw [named, storing.2 format])

theorem ShellState.start_image (t : ShellState) : t.start.image = t.image ∧ t.start.attached = t.attached := by
  unfold ShellState.start
  split <;> exact ⟨rfl, rfl⟩

theorem ShellState.line_save {text : CString} (save : text.firstWord = literal "save") :
    t.line text = some (t.save (t.tree.keepNames t.users), false) :=
  @ShellState.line_word t text "save" .save (by decide) save (by decide)

end Images

section Runs

/-- What one step leaves on the disk. -/
theorem Computer.Stands.step_kept {input : Input} {next : Computer} (stands : c.Stands k) (steps : c.step input = some next) :
    next.session.attached = c.session.attached ∧
      ((input = .poll → ¬ k.Stores) → next.session.image = c.session.image) := by
  by_cases power : input = .power
  · subst power
    cases steps
    exact ⟨c.session.start_image.2, fun _ => c.session.start_image.1⟩
  by_cases running : c.stopped = false
  · cases input with
    | power => exact absurd rfl power
    | tick =>
      cases steps
      exact ⟨rfl, fun _ => rfl⟩
    | scancode byte =>
      rw [Computer.step_scancode running] at steps
      cases steps
      exact ⟨rfl, fun _ => rfl⟩
    | poll =>
      rw [Computer.step_poll running] at steps
      cases waiting : c.waiting with
      | nil =>
        rw [Computer.poll, waiting] at steps
        cases steps
        exact ⟨rfl, fun _ => rfl⟩
      | cons key rest =>
        by_cases enter : key = 10
        · subst enter
          have entered : k.entered = some (CString.ofBytes c.held) := by
            rw [stands.entered, Computer.ready, waiting]
            exact if_pos ⟨running, rfl⟩
          rw [Computer.poll_enter waiting] at steps
          obtain ⟨outcome, meant, rfl⟩ := Option.map_eq_some_iff.mp steps
          obtain ⟨attached, image⟩ := ShellState.line_kept meant
          refine ⟨attached, fun quiet => image ?_ ?_⟩
          · exact fun save => quiet rfl ⟨_, entered, .inl save⟩
          · exact fun format => quiet rfl ⟨_, entered, .inr format⟩
        · rw [Computer.poll_key waiting enter] at steps
          cases steps
          exact ⟨rfl, fun _ => rfl⟩
  · obtain ⟨same, _⟩ := stands.asleep (Bool.not_eq_false _ ▸ running) power
    cases same.symm.trans steps
    exact ⟨rfl, fun _ => rfl⟩

/-- No turn of the run executes a command that writes. -/
def NeverStores (k : Kernel Drive) (inputs : List Input) : Prop :=
  ∀ front rest middle, inputs = front ++ .poll :: rest → runKernel drive k front = .ok middle → ¬ middle.Stores

theorem NeverStores.first {input : Input} {inputs : List Input} (never : NeverStores k (input :: inputs)) :
    input = .poll → ¬ k.Stores := by
  rintro rfl
  exact never [] inputs k rfl rfl

theorem NeverStores.rest {input : Input} {inputs : List Input} {next : Kernel Drive} (never : NeverStores k (input :: inputs))
    (step : Kernel.step drive k input = .ok next) : NeverStores next inputs := by
  intro front rest middle same ran
  refine never (input :: front) rest middle (congrArg (input :: ·) same) ?_
  exact (runSteps_cons step).trans ran

/-- A run leaves the disk where it is, and without such a turn also what it holds. -/
theorem Computer.Stands.run_kept {inputs : List Input} {last : Kernel Drive} (stands : c.Stands k)
    (ran : runKernel drive k inputs = .ok last) :
    ∃ after : Computer, after.Stands last ∧ after.session.attached = c.session.attached ∧
      (NeverStores k inputs → after.session.image = c.session.image) := by
  induction inputs generalizing k c with
  | nil =>
    cases ran
    exact ⟨c, stands, rfl, fun _ => rfl⟩
  | cons input inputs ih =>
    cases steps : c.step input with
    | none =>
      obtain ⟨wrong, failed, _⟩ := kernel_simulates.fails k c input stands steps
      cases ran.symm.trans (runSteps_failed failed)
    | some next =>
      obtain ⟨middle, went, stands'⟩ := kernel_simulates.goes k c input next stands steps
      obtain ⟨after, stands'', attached, image⟩ := ih stands' ((runSteps_cons went).symm.trans ran)
      obtain ⟨attached', image'⟩ := stands.step_kept steps
      refine ⟨after, stands'', attached.trans attached', fun never => ?_⟩
      exact (image (never.rest went)).trans (image' never.first)

/-- What the kernel is after a run from a start. -/
theorem kernel_stands {inputs : List Input} {last : Kernel Drive} (disk : k.machine.disk.Carries t.attached t.image)
    (ran : runKernel drive k (.power :: inputs) = .ok last) : ∃ c : Computer, c.Stands last ∧ c.session.attached = t.attached := by
  obtain ⟨started, on, stands⟩ := kernelMain_stands disk
  have first : Kernel.step drive k .power = .ok started := on
  obtain ⟨after, stands', attached, _⟩ := stands.run_kept ((runSteps_cons first).symm.trans ran)
  exact ⟨after, stands', attached.trans t.start_image.2⟩

end Runs

section Saving

/-- A turn that executes `save` puts the tree, with the names in it, on the disk. -/
theorem Computer.Stands.saved {line : CString} {saved : Kernel Drive} (stands : c.Stands k)
    (attached : c.session.attached = true) (ready : k.entered = some line) (save : line.firstWord = literal "save")
    (turn : Kernel.step drive k .poll = .ok saved) :
    ∃ after : Computer, after.Stands saved ∧ after.session.attached = true ∧
      after.session.image = .tree after.session.tree ∧ after.session.users = c.session.users ∧
      after.session.tree = c.session.tree.keepNames c.session.users := by
  rw [stands.entered] at ready
  unfold Computer.ready at ready
  split at ready
  next enter =>
    obtain ⟨running, first⟩ := enter
    obtain ⟨rest, waiting⟩ := List.head?_eq_some_iff.mp first
    have held := Option.some.inj ready
    have steps : c.step .poll =
        (c.session.line line).map fun outcome =>
          { c with session := outcome.1, waiting := rest, held := [], stopped := outcome.2 } := by
      rw [Computer.step_poll running, Computer.poll_enter waiting, held]
    rw [ShellState.line_save save, Option.map_some] at steps
    generalize c.session.tree.keepNames c.session.users = kept at steps ⊢
    obtain ⟨after, went, stands'⟩ := kernel_simulates.goes k c .poll _ stands steps
    cases went.symm.trans turn
    exact ⟨_, stands', (ShellState.save_attached _ _).trans attached, ShellState.save_image attached kept,
      ShellState.save_users _ _, ShellState.save_tree _ _⟩
  next => cases ready

/-- The next start finds the tree of the last `save` as it was, with the directory the shell
was in, and the names when their file had room. Whatever is done in between, further starts
too, changes nothing as long as no other `save` or `format` is executed. -/
theorem start_restores_saved (t : ShellState) (disk : k.machine.disk.Carries true t.image) {earlier later : List Input}
    {before saved last : Kernel Drive} {line : CString} (ran : runKernel drive k (.power :: earlier) = .ok before)
    (entered : before.entered = some line) (save : line.firstWord = literal "save")
    (turn : Kernel.step drive before .poll = .ok saved) (never : NeverStores saved later)
    (ran' : runKernel drive saved later = .ok last) :
    ∃ restored, Kernel.step drive last .power = .ok restored ∧
      restored.machine.fish.entries = saved.machine.fish.entries ∧
      restored.machine.fish.cwdPath = saved.machine.fish.cwdPath ∧
      (∀ content, saved.machine.fish.entries [configFile] = some (.file content) →
        restored.machine.users = before.machine.users) := by
  have disk' : k.machine.disk.Carries ({ t with attached := true } : ShellState).attached t.image := disk
  obtain ⟨c, stands, attached⟩ := kernel_stands (t := { t with attached := true }) disk' ran
  obtain ⟨c', stands', attached', image, users, tree⟩ := stands.saved attached entered save turn
  obtain ⟨c'', stands'', attached'', kept⟩ := stands'.run_kept ran'
  obtain ⟨restored, on, stands₃⟩ := kernelMain_stands stands''.session.disk
  have start := ShellState.start_tree (attached''.trans attached') ((kept never).trans image)
  have session := stands₃.session
  change c''.session.start.Stands restored.machine at session
  rw [start] at session
  refine ⟨restored, on, ?_, ?_, fun content found => ?_⟩
  · rw [session.tree.entries, stands'.session.tree.entries]
  · rw [session.tree.cwd, stands'.session.tree.cwd]
  · rw [session.users, stands.session.users]
    change c'.session.tree.names = c.session.users
    rw [stands'.session.tree.entries, tree] at found
    have accepted := stands.session.accepted
    rcases c.session.tree.keepNames_cases c.session.users with ⟨_, _, entries⟩ | ⟨full, same⟩
    · rw [tree, FileTree.names, entries, Function.update_self]
      exact readLines_text accepted.1 accepted.2 _
    · rw [same] at found
      exact absurd (.inl ⟨content, found⟩) full

/-- `save` and Enter, and the turns that take the letters. -/
def saveKeys : List Input :=
  [.scancode 0x1F, .scancode 0x1E, .scancode 0x2F, .scancode 0x12, .scancode 0x1C, .poll, .poll, .poll, .poll]

/-- A tick after the first `save` of a new disk, and a start. -/
theorem start_restores_saved_cold :
    ∃ saved last restored, runKernel drive Kernel.cold (.power :: saveKeys ++ [.poll]) = .ok saved ∧
      Kernel.step drive saved .tick = .ok last ∧ Kernel.step drive last .power = .ok restored ∧
      restored.machine.fish.entries = saved.machine.fish.entries := by
  have whole : (runKernel drive Kernel.cold ((.power :: saveKeys ++ [.poll]) ++ [.tick])).isOk = true := by decide +kernel
  have ready : (runKernel drive Kernel.cold (.power :: saveKeys)).toOption.map Kernel.entered = some (some (literal "save")) := by
    decide +kernel
  cases done : runKernel drive Kernel.cold ((.power :: saveKeys ++ [.poll]) ++ [.tick]) with
  | error wrong =>
    rw [done] at whole
    cases whole
  | ok last =>
    obtain ⟨saved, toSaved, ticked⟩ := runSteps_split done
    obtain ⟨before, toBefore, turned⟩ := runSteps_split toSaved
    have turn : Kernel.step drive before .poll = .ok saved := (runSteps_single _ _ _).symm.trans turned
    have tick : Kernel.step drive saved .tick = .ok last := (runSteps_single _ _ _).symm.trans ticked
    have ran : runKernel drive Kernel.cold (.power :: saveKeys) = .ok before := toBefore
    rw [ran] at ready
    have quiet : NeverStores saved [.tick] := by
      intro front rest middle same
      cases front with
      | nil => cases same
      | cons first front =>
        have empty := (List.cons.inj same).2
        cases front <;> cases empty
    obtain ⟨restored, on, entries, _⟩ := start_restores_saved ⟨userInit, .bare, true, .unknown⟩ Drive.blank_carries ran
      (Option.some.inj ready) rfl turn quiet ticked
    exact ⟨saved, last, restored, toSaved, tick, on, entries⟩

end Saving
end Seaweed
