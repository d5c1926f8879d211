import Seaweed.Proofs.CommandTexts
import Seaweed.Proofs.KernelStorage

/-! What a user sees of the files and of the time, in every state that a run of the kernel
reaches. -/

namespace Seaweed
open Library

variable {s : Fish} {t : ShellState} {k : Kernel Drive} {i j : Fin fishMaxNodes}

section Directory

/-- The line for an entry of the current directory. -/
def entryText : CString × Content → List Event
  | (name, .dir) => [.color 9 0, .write "[DIR]  ", .chars name.chars, newline]
  | (name, .file content) => [.color 7 0, .write "[FILE] ", .chars name.chars, .write "  (",
      .chars (numeralText 10 content.length), .write " bytes)", newline]

def Fish.entry (s : Fish) (i : Fin fishMaxNodes) : CString × Content := ((s.nodes i).called, s.kind i)

theorem Valid.line_eq (valid : Valid s) (i : Fin fishMaxNodes) : s.line i = entryText (s.entry i) := by
  unfold Fish.line Fish.entry
  split
  next dir =>
    rw [Fish.kind_dir dir]
    rfl
  next file =>
    have length : (s.nodes i).content.length = (s.nodes i).size.toNat := by
      rw [Node.content, List.length_take, Buffer.bytes_length, Nat.min_eq_left (valid.measured i).1]
    rw [Fish.kind_file file, entryText, length]

/-- Two slots of the current directory have different names. -/
theorem Sound.listed_inj (sound : Sound s) (first : s.listed i = true) (second : s.listed j = true)
    (same : (s.nodes i).called = (s.nodes j).called) : i = j := by
  obtain ⟨d, here, used, dir, path⟩ := sound.cwd_path
  obtain ⟨live, under⟩ := (Fish.listed_iff here).mp first
  obtain ⟨live', under'⟩ := (Fish.listed_iff here).mp second
  have above : s.tree.Path 0 ((s.nodes i).called :: s.cwdPath) i := .child path live (Fish.tree_parent.mpr under)
  have above' : s.tree.Path 0 ((s.nodes j).called :: s.cwdPath) j := .child path live' (Fish.tree_parent.mpr under')
  rw [same] at above
  exact above.inj sound.rooted above'

/-- The slots of the current directory are its entries in the file tree. -/
theorem Sound.listed_entries (sound : Sound s) (name : CString) (content : Content) :
    (∃ i, s.listed i = true ∧ s.entry i = (name, content)) ↔ s.entries (name :: s.cwdPath) = some content := by
  obtain ⟨d, here, used, dir, path⟩ := sound.cwd_path
  rw [sound.entries_eq_some]
  constructor
  · rintro ⟨i, listed, same⟩
    cases same
    obtain ⟨live, under⟩ := (Fish.listed_iff here).mp listed
    exact ⟨i, .child path live (Fish.tree_parent.mpr under), rfl⟩
  · rintro ⟨i, inner, rfl⟩
    cases inner with
    | child above live parent =>
      obtain rfl := above.inj sound.rooted path
      exact ⟨i, (Fish.listed_iff here).mpr ⟨live, Fish.tree_parent.mp parent⟩, rfl⟩

/-- The entries that `ls` shows, in the order of the slots. -/
def Fish.shown (s : Fish) : List (CString × Content) := (presentFrom s.listed 0).map s.entry

theorem Fish.mem_shown {shown : CString × Content} : shown ∈ s.shown ↔ ∃ i, s.listed i = true ∧ s.entry i = shown := by
  simp [Fish.shown, mem_presentFrom]

theorem Sound.shown_nodup (sound : Sound s) : (s.shown.map Prod.fst).Nodup := by
  rw [Fish.shown, List.map_map]
  apply List.Nodup.map_on _ presentFrom_nodup
  intro i member j member' same
  exact sound.listed_inj (mem_presentFrom.mp member).2 (mem_presentFrom.mp member').2 same

theorem Valid.cmdLs_shown (valid : Valid s) :
    cmdLs s = .ok ((s.shown.map entryText).flatten ++ [.color 7 0] ++
      if s.shown = [] then [.write "Directory is empty.\n"] else []) := by
  have lines : (presentFrom s.listed 0).map s.line = s.shown.map entryText := by
    rw [Fish.shown, List.map_map]
    exact List.map_congr_left fun i _ => valid.line_eq i
  have none : presentFrom s.listed 0 = [] ↔ s.shown = [] := List.map_eq_nil_iff.symm
  rw [valid.toSound.cmdLs_eq, lines]
  simp only [none]

end Directory

/-- What `cat` writes for what the file tree has under the name. -/
def catText : Option Content → List Event
  | some (.file content) => shownText content
  | _ => [.write "cat: no such file\n"]

theorem Valid.cmdCat_text (valid : Valid s) {arg : CString} (named : arg.chars ≠ []) :
    cmdCat arg s = .ok (catText (s.entries (arg :: s.cwdPath))) := by
  have look : valid.toSound.view.look arg = s.entries (arg :: s.cwdPath) := by
    rw [FileTree.look, Sound.view_entries, Sound.view_cwd]
  rw [valid.cmdCat_eq, if_neg named, FileTree.read, look]
  cases s.entries (arg :: s.cwdPath) with
  | none => rfl
  | some content => cases content <;> rfl

/-- Wherever a run of the kernel has led, `ls` shows each entry of the current directory on
one line, with its kind and size, and nothing else; `pwd` shows the path as far as its array
goes, and `cat` the bytes of a file, with a line end behind them when they lack one. -/
theorem shell_shows_files (disk : k.machine.disk.Carries t.attached t.image) {inputs : List Input} {last : Kernel Drive}
    (ran : runKernel drive k (.power :: inputs) = .ok last) :
    (∃ shown, cmdLs last.machine.fish = .ok ((shown.map entryText).flatten ++ [.color 7 0] ++
        if shown = [] then [.write "Directory is empty.\n"] else []) ∧
      (shown.map Prod.fst).Nodup ∧ ∀ name content, (name, content) ∈ shown ↔
        last.machine.fish.entries (name :: last.machine.fish.cwdPath) = some content) ∧
    cmdPwd last.machine.fish = .ok [.chars (last.machine.fish.cwdPath.text.chars.take 255), newline] ∧
    ∀ arg : CString, arg.chars ≠ [] →
      cmdCat arg last.machine.fish = .ok (catText (last.machine.fish.entries (arg :: last.machine.fish.cwdPath))) := by
  obtain ⟨c, stands, _⟩ := kernel_stands disk ran
  have valid := stands.session.tree.valid
  refine ⟨⟨_, valid.cmdLs_shown, valid.toSound.shown_nodup, fun name content => ?_⟩, valid.toSound.cmdPwd_eq, ?_⟩
  · rw [Fish.mem_shown]
    exact valid.toSound.listed_entries name content
  · intro arg named
    exact valid.cmdCat_text named

/-- After `mkdir a`, `touch b` and `write b hi` on a new disk, `ls` shows the two and `cat b` what is in the file. -/
theorem shell_shows_files_written : ∃ (last : Kernel Drive) (shown : List (CString × Content)),
    runKernel drive Kernel.cold (.power :: (typeLine "mkdir a" ++ typeLine "touch b" ++ typeLine "write b hi")) = .ok last ∧
    (shown.map entryText).flatten = [.color 9 0, .write "[DIR]  ", .chars [97], newline, .color 7 0, .write "[FILE] ", .chars [98],
      .write "  (", .chars [50], .write " bytes)", newline] ∧
    (∀ name content, (name, content) ∈ shown ↔
      last.machine.fish.entries (name :: last.machine.fish.cwdPath) = some content) ∧
    cmdLs last.machine.fish = .ok ((shown.map entryText).flatten ++ [.color 7 0]) ∧
    catText (last.machine.fish.entries (literal "b" :: last.machine.fish.cwdPath)) = [.chars [104, 105], newline] := by
  have shows : (runKernel drive Kernel.cold (.power :: (typeLine "mkdir a" ++ typeLine "touch b" ++ typeLine "write b hi"))).toOption.map
      (fun last => ((cmdLs last.machine.fish).toOption, (cmdCat (literal "b") last.machine.fish).toOption)) =
        some (some [.color 9 0, .write "[DIR]  ", .chars [97], newline, .color 7 0, .write "[FILE] ", .chars [98],
          .write "  (", .chars [50], .write " bytes)", newline, .color 7 0], some [.chars [104, 105], newline]) := by decide +kernel
  cases ran : runKernel drive Kernel.cold (.power :: (typeLine "mkdir a" ++ typeLine "touch b" ++ typeLine "write b hi")) with
  | error wrong =>
    rw [ran] at shows
    cases shows
  | ok last =>
    obtain ⟨⟨shown, ls, _, listed⟩, _, cat⟩ := @shell_shows_files ⟨userInit, .bare, true, .unknown⟩ Kernel.cold Drive.blank_carries _ _ ran
    have written := cat (literal "b") (by decide +kernel)
    rw [ran] at shows
    simp only [Except.toOption, Option.map_some, ls, written, Option.some.injEq, Prod.mk.injEq] at shows
    by_cases none : shown = []
    · rw [none] at shows
      exact absurd shows.1 (by decide)
    · rw [if_neg none, List.append_nil] at shows ls
      refine ⟨last, shown, rfl, ?_, listed, ls, shows.2⟩
      exact List.append_cancel_right shows.1

section Time

variable {σ : Type} {ata : Ata σ}

/-- No command touches the tick counter. -/
theorem CommandFn.call_ticks {fn : CommandFn} {arg : CString} {m after : Machine σ} {out : List Event}
    (done : fn.call ata arg m = .ok (out, after)) : after.ticks = m.ticks := by
  cases fn with
  | neofetch | clear | echo | about | load | format | disk | whoami | sleep | reboot | halt =>
    cases done
    rfl
  | _ =>
    obtain ⟨answer, _, same⟩ := bind_inv done
    cases same
    rfl

theorem execute_ticks {text : List UInt8} {m after : Machine σ} {out : List Event}
    (done : execute ata text m = .ok (out, after)) : after.ticks = m.ticks := by
  obtain ⟨text, _, done⟩ := bind_inv done
  split at done
  next =>
    cases done
    rfl
  next =>
    obtain ⟨cut, _, done⟩ := bind_inv done
    obtain ⟨row, _, done⟩ := bind_inv done
    cases row with
    | none =>
      cases done
      rfl
    | some row => exact row.run.call_ticks done

theorem Kernel.ask_ticks {k after : Kernel σ} (done : k.ask = .ok after) :
    after.machine.ticks = k.machine.ticks := by
  obtain ⟨screen, _, same⟩ := bind_inv done
  cases same
  rfl

/-- A turn of the loop leaves the counter as it is. -/
theorem Kernel.poll_ticks {k after : Kernel σ} (done : k.poll ata = .ok after) : after.machine.ticks = k.machine.ticks := by
  obtain ⟨⟨key, keyboard⟩, _, done⟩ := bind_inv done
  obtain ⟨⟨ended, input⟩, _, done⟩ := bind_inv done
  cases ended with
  | false =>
    cases done
    rfl
  | true =>
    obtain ⟨⟨out, machine⟩, ran, done⟩ := bind_inv done
    obtain ⟨screen, _, done⟩ := bind_inv done
    have kept : machine.ticks = k.machine.ticks := execute_ticks (Went.ofRan_inv ran)
    split at done
    next =>
      cases done
      exact kept
    next => exact (Kernel.ask_ticks done).trans kept

/-- Only a tick counts, and a kernel that runs was running before. -/
theorem Kernel.step_ticks {k after : Kernel σ} {input : Input} (on : input ≠ .power)
    (step : Kernel.step ata k input = .ok after) (running : after.stopped = false) :
    k.stopped = false ∧ after.machine.ticks = k.machine.ticks + if input = .tick then 1 else 0 := by
  cases stopped : k.stopped with
  | true =>
    cases input with
    | power => exact absurd rfl on
    | _ =>
      simp only [Kernel.step, stopped, if_true] at step
      cases step
      cases running.symm.trans stopped
  | false =>
    refine ⟨rfl, ?_⟩
    cases input with
    | power => exact absurd rfl on
    | tick =>
      simp only [Kernel.step, stopped, Bool.false_eq_true, if_false] at step
      cases step
      rfl
    | scancode byte =>
      simp only [Kernel.step, stopped, Bool.false_eq_true, if_false] at step
      obtain ⟨keyboard, _, same⟩ := bind_inv step
      cases same
      exact (UInt32.add_zero _).symm
    | poll =>
      simp only [Kernel.step, stopped, Bool.false_eq_true, if_false] at step
      exact (Kernel.poll_ticks step).trans (UInt32.add_zero _).symm

theorem runKernel_ticks {k last : Kernel σ} {inputs : List Input} (on : .power ∉ inputs)
    (ran : runKernel ata k inputs = .ok last) (running : last.stopped = false) :
    k.stopped = false ∧ last.machine.ticks = k.machine.ticks + UInt32.ofNat (inputs.count .tick) := by
  induction inputs generalizing k with
  | nil =>
    cases ran
    exact ⟨running, (UInt32.add_zero _).symm⟩
  | cons input inputs ih =>
    obtain ⟨middle, first, rest⟩ := @runSteps_split _ _ _ (Kernel.step ata) [input] inputs k last ran
    have step : Kernel.step ata k input = .ok middle := (runSteps_single _ _ _).symm.trans first
    obtain ⟨on', off⟩ := not_or.mp (List.mem_cons.not.mp on)
    obtain ⟨awake, count⟩ := ih off rest
    obtain ⟨awake', one⟩ := Kernel.step_ticks (fun same => on' same.symm) step awake
    refine ⟨awake', ?_⟩
    rw [count, one, UInt32.add_assoc, List.count_cons, Nat.add_comm, UInt32.ofNat_add]
    congr 2
    by_cases tick : input = .tick <;> simp [tick]

theorem kernelMain_ticks {k after : Kernel σ} (done : kernelMain ata k = .ok after) : after.machine.ticks = 0 := by
  obtain ⟨screen, _, done⟩ := bind_inv done
  obtain ⟨screen, _, done⟩ := bind_inv done
  obtain ⟨started, _, done⟩ := bind_inv done
  obtain ⟨screen, _, done⟩ := bind_inv done
  exact Kernel.ask_ticks done

/-- `uptime` and `ticks` tell how many ticks have come since the start, whatever came between
them. The counter begins again after 2^32 of them. -/
theorem uptime_tells_ticks (k : Kernel σ) {inputs : List Input} {last : Kernel σ} (on : .power ∉ inputs)
    (ran : runKernel ata k (.power :: inputs) = .ok last) (running : last.stopped = false) :
    cmdTicks last.machine.ticks = .ok [.chars (numeralText 10 (inputs.count .tick % 2 ^ 32)), .write " ticks at ",
      .chars (numeralText 10 100), .write " Hz\n"] ∧
    ∃ hours minutes seconds : UInt32, minutes < 60 ∧ seconds < 60 ∧
      hours.toNat * 3600 + minutes.toNat * 60 + seconds.toNat = inputs.count .tick % 2 ^ 32 / 100 ∧
      cmdUptime last.machine.ticks = .ok (.write "up " :: unitsText hours "hour" ++ unitsText minutes "minute" ++
        unitText seconds "second" ++ [newline]) := by
  obtain ⟨middle, first, rest⟩ := @runSteps_split _ _ _ (Kernel.step ata) [.power] inputs k last ran
  have step : Kernel.step ata k .power = .ok middle := (runSteps_single _ _ _).symm.trans first
  have start : kernelMain ata k = .ok middle := step
  have count := (runKernel_ticks on rest running).2
  rw [kernelMain_ticks start, UInt32.zero_add] at count
  have passed : last.machine.ticks.toNat = inputs.count .tick % 2 ^ 32 := by
    rw [count]
    rfl
  have total : (timerSeconds last.machine.ticks).toNat = inputs.count .tick % 2 ^ 32 / 100 := by
    rw [← passed]
    rfl
  refine ⟨?_, timerSeconds last.machine.ticks / 3600, timerSeconds last.machine.ticks / 60 % 60,
    timerSeconds last.machine.ticks % 60, ?_, ?_, ?_, ?_⟩
  · rw [cmdTicks_eq, passed]
    rfl
  · exact UInt32.mod_lt _ (by decide)
  · exact UInt32.mod_lt _ (by decide)
  · rw [← total]
    simp only [UInt32.toNat_div, UInt32.toNat_mod, UInt32.reduceToNat]
    omega
  · rw [cmdUptime_eq, uptimeText]

/-- Two ticks around a key. -/
theorem uptime_tells_ticks_cold : ∃ last, runKernel drive Kernel.cold [.power, .tick, .scancode 0x11, .tick] = .ok last ∧
    cmdTicks last.machine.ticks = .ok [.chars (numeralText 10 2), .write " ticks at ", .chars (numeralText 10 100),
      .write " Hz\n"] := by
  have running : (runKernel drive Kernel.cold [.power, .tick, .scancode 0x11, .tick]).toOption.map Kernel.stopped = some false := by
    decide +kernel
  cases ran : runKernel drive Kernel.cold [.power, .tick, .scancode 0x11, .tick] with
  | error wrong =>
    rw [ran] at running
    cases running
  | ok last =>
    rw [ran] at running
    refine ⟨last, rfl, ?_⟩
    exact (uptime_tells_ticks Kernel.cold (by decide) ran (Option.some.inj running)).1

end Time
end Seaweed
