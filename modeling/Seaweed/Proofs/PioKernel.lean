import Seaweed.Board
import Seaweed.Proofs.KernelRefinement
import Seaweed.Proofs.PioStorage

/-! The whole kernel over the ports. As long as the drive answers right the kernel keeps to
the protocol, and is the computer that it is over a disk. -/

namespace Seaweed
open Library

variable {σ τ : Type} {k : Kernel τ} {v : Vga}

section Commands

/-- What a line comes to: it goes wrong, or has its talk with the disk. -/
abbrev LineTalk : Type := Ran (DiskTalk (List Event × Users × Fish))

/-- The talk with its answers. -/
def LineTalk.play (part : LineTalk) (ticks : UInt32) (ata : Ata σ) (d : σ) : Ran (List Event × Machine σ) := do
  let talk ← part
  let ((out, u, s), d) := talk.run (DiskCall.run ata) d
  .ok (out, ⟨u, s, d, ticks⟩)

/-- No disk at all. -/
def noDisk : Ata Unit := ⟨fun _ => (false, ()), fun _ => false, fun _ _ => (none, ()), fun _ _ _ => (false, ())⟩

/-- The commands that come to the disk. -/
def CommandFn.asks : CommandFn → Bool
  | .save | .load | .format | .disk => true
  | _ => false

/-- The others do not look at it. -/
theorem CommandFn.call_alone {fn : CommandFn} (alone : fn.asks = false) (arg : CString) (ata : Ata σ) (u : Users) (s : Fish)
    (d : σ) (ticks : UInt32) :
    fn.call ata arg ⟨u, s, d, ticks⟩ =
      fn.call noDisk arg ⟨u, s, (), ticks⟩ >>= fun done => .ok (done.1, ⟨done.2.users, done.2.fish, d, ticks⟩) := by
  cases fn with
  | save | load | format | disk => cases alone
  | neofetch | clear | echo | about | whoami | sleep | reboot | halt => rfl
  | _ =>
    simp only [CommandFn.call, bind_assoc]
    rfl

theorem CommandFn.call_talks (fn : CommandFn) (arg : CString) (u : Users) (s : Fish) (ticks : UInt32) :
    ∃ part : LineTalk, ∀ (σ : Type) (ata : Ata σ) (d : σ), fn.call ata arg ⟨u, s, d, ticks⟩ = part.play ticks ata d := by
  cases asks : fn.asks with
  | false =>
    refine ⟨fn.call noDisk arg ⟨u, s, (), ticks⟩ >>= fun done => .ok (.done (done.1, done.2.users, done.2.fish)), fun σ ata d => ?_⟩
    rw [CommandFn.call_alone asks, LineTalk.play, bind_assoc]
    rfl
  | true =>
    cases fn with
    | save =>
      cases kept : userSave u s with
      | error wrong =>
        refine ⟨.error (.fault wrong), fun σ ata d => ?_⟩
        simp only [CommandFn.call, cmdSave, kept]
        rfl
      | ok saved =>
        obtain ⟨talk, same⟩ := fishSave_talks saved.2
        refine ⟨.ok (talk.andThen fun result => .done (if result.value < 0 then
          (fishFail "save" result).map .write else [.write "Filesystem written to disk.\n"], u, saved.2)), fun σ ata d => ?_⟩
        simp only [CommandFn.call, cmdSave, kept, same, LineTalk.play, ok_bind, Dialogue.run_andThen, Dialogue.run_done]
        split_ifs <;> rfl
    | load =>
      obtain ⟨talk, same⟩ := fishLoad_talks s
      refine ⟨.ok (talk.andThen fun answer => .done (if answer.1.value < 0 then
        (fishFail "load" answer.1).map .write else [.write "Filesystem restored from disk.\n"], u, answer.2)), fun σ ata d => ?_⟩
      simp only [CommandFn.call, cmdLoad, same, LineTalk.play, ok_bind, Dialogue.run_andThen, Dialogue.run_done]
      split_ifs <;> rfl
    | format =>
      obtain ⟨talk, same⟩ := fishSave_talks fishInit
      refine ⟨.ok (talk.andThen fun result => .done (if result.value < 0 then
        failed "format" result else [.write "Filesystem erased and written to disk.\n"], u, fishInit)), fun σ ata d => ?_⟩
      simp only [CommandFn.call, cmdFormat, same, LineTalk.play, ok_bind, Dialogue.run_andThen, Dialogue.run_done]
      split_ifs <;> rfl
    | disk =>
      refine ⟨.ok (.ask .present fun (here : Bool) => .done (if here then [.write "Primary master: present\n"]
        else [.write "Primary master: not found\n"], u, s)), fun σ ata d => rfl⟩
    | _ => cases asks

theorem execute_talks (text : List UInt8) (m : Machine τ) :
    ∃ part : LineTalk, ∀ (σ : Type) (ata : Ata σ) (d : σ),
      execute ata text ⟨m.users, m.fish, d, m.ticks⟩ = part.play m.ticks ata d := by
  unfold execute
  cases Ran.ofOption .line (skipSpaces text) with
  | error wrong => exact ⟨.error wrong, fun σ ata d => rfl⟩
  | ok text =>
    simp only [ok_bind]
    split
    · exact ⟨.ok (.done ([], m.users, m.fish)), fun σ ata d => rfl⟩
    cases Ran.ofOption .line (Shell.split text) with
    | error wrong => exact ⟨.error wrong, fun σ ata d => rfl⟩
    | ok parts =>
      simp only [ok_bind]
      cases findCommand parts.1 commands with
      | error wrong => exact ⟨.error wrong, fun σ ata d => rfl⟩
      | ok found =>
        cases found with
        | none => exact ⟨.ok (.done (_, m.users, m.fish)), fun σ ata d => rfl⟩
        | some row => exact row.run.call_talks (CString.ofBytes parts.2) m.users m.fish m.ticks

end Commands

section Steps

/-- What a step comes to. -/
abbrev KernelTalk : Type := DiskTalk (Went (Kernel Unit))

/-- The talk with its answers. -/
def KernelTalk.play (talk : KernelTalk) (ata : Ata σ) (d : σ) : Went (Kernel σ) := do
  let after ← (talk.run (DiskCall.run ata) d).1
  .ok (after.on (talk.run (DiskCall.run ata) d).2)

/-- What goes wrong has not changed the disk. -/
def KernelTalk.Settled (talk : KernelTalk) : Prop :=
  ∀ (σ : Type) (ata : Ata σ) (d : σ) wrong, (talk.run (DiskCall.run ata) d).1 = .error wrong → (talk.run (DiskCall.run ata) d).2 = d

theorem KernelTalk.settled_done (went : Went (Kernel Unit)) : KernelTalk.Settled (.done went) := fun _ _ _ _ _ => rfl

theorem LineInput.store_screen {s after : LineInput} {i : ℕ} {c : UInt8} (stored : s.store i c = some after) :
    after.screen = s.screen := by
  unfold LineInput.store at stored
  split at stored
  · cases stored
    rfl
  · cases stored

theorem readKey_inside {s after : LineInput} {key : Int32} {ended : Bool} (inside : s.screen.Inside)
    (read : readKey s key = some (ended, after)) : after.screen.Inside := by
  unfold readKey at read
  split_ifs at read
  · cases read
    exact inside
  · obtain ⟨screen, put, inside'⟩ := inside.putchar 10
    rw [put, Option.bind_eq_bind, Option.bind_some] at read
    obtain ⟨stored, store, same⟩ := Option.bind_eq_some_iff.mp read
    cases same
    rw [LineInput.store_screen store]
    exact inside'
  · obtain ⟨screen, put, inside'⟩ := inside.putchar 8
    rw [put] at read
    cases read
    exact inside'
  · cases read
    exact inside
  · cases read
    exact inside
  · cases read
    exact inside
  · obtain ⟨stored, store, read'⟩ := Option.bind_eq_some_iff.mp read
    obtain ⟨screen, put, inside'⟩ := inside.putchar key.toUInt32.toUInt8
    rw [LineInput.store_screen store, put] at read'
    cases read'
    exact inside'

/-- After a line the kernel stops or asks for the next one. -/
theorem Kernel.runLine_talks (k : Kernel τ) (inside : k.input.screen.Inside) :
    ∃ talk : KernelTalk, talk.Settled ∧ ∀ (σ : Type) (ata : Ata σ) (d : σ), (k.on d).runLine ata = talk.play ata d := by
  obtain ⟨part, same⟩ := execute_talks k.input.line.bytes k.machine
  have run : ∀ (σ : Type) (ata : Ata σ) (d : σ), execute ata (k.on d).input.line.bytes (k.on d).machine = part.play k.machine.ticks ata d :=
    fun σ ata d => same σ ata d
  cases part with
  | error wrong =>
    refine ⟨.done (.error (.undefined wrong)), KernelTalk.settled_done _, fun σ ata d => ?_⟩
    rw [Kernel.runLine, run]
    rfl
  | ok talk =>
    choose screens drawn inside' using fun out => inside.drawAll out
    choose prompts asked _ using fun out u => (inside' out).drawAll (promptText u)
    refine ⟨talk.andThen fun done => .done (.ok (if done.1.any Event.ends then
        ⟨⟨done.2.1, done.2.2, (), k.machine.ticks⟩, k.keyboard, { k.input with screen := screens done.1 }, true⟩
      else ⟨⟨done.2.1, done.2.2, (), k.machine.ticks⟩, k.keyboard, ⟨k.input.line, 0, prompts done.1 done.2.1⟩, k.stopped⟩)),
      fun σ ata d wrong failed => ?_, fun σ ata d => ?_⟩
    · rw [Dialogue.run_andThen] at failed
      cases failed
    · rw [Kernel.runLine, run, KernelTalk.play, Dialogue.run_andThen]
      rcases answers : talk.run (DiskCall.run ata) d with ⟨⟨out, u, s⟩, d'⟩
      simp only [LineTalk.play, answers, ok_bind, Went.ofRan_ok, Kernel.on, drawn, Went.inside_some, Dialogue.run_done]
      split_ifs
      · rfl
      · simp only [Kernel.ask, asked, Went.inside_some, ok_bind]

/-- Away from the power a step asks the disk only for a line. -/
theorem Kernel.step_talks (k : Kernel τ) (inside : k.stopped = false → k.input.screen.Inside) {input : Input} (on : input ≠ .power) :
    ∃ talk : KernelTalk, talk.Settled ∧ ∀ (σ : Type) (ata : Ata σ) (d : σ), (k.on d).step ata input = talk.play ata d := by
  have still : ∀ went : Went (Kernel Unit), (∀ (σ : Type) (ata : Ata σ) (d : σ), (k.on d).step ata input = KernelTalk.play (.done went) ata d) →
      ∃ talk : KernelTalk, talk.Settled ∧ ∀ (σ : Type) (ata : Ata σ) (d : σ), (k.on d).step ata input = talk.play ata d :=
    fun went same => ⟨.done went, KernelTalk.settled_done went, same⟩
  by_cases stopped : k.stopped = true
  · refine still (.ok (k.on ())) fun σ ata d => ?_
    have off : (k.on d).stopped = true := stopped
    cases input with
    | power => exact absurd rfl on
    | _ =>
      rw [Kernel.step, if_pos off]
      rfl
  have running : ∀ {σ : Type} (d : σ), ¬ (k.on d).stopped = true := fun _ => stopped
  cases input with
  | power => exact absurd rfl on
  | tick =>
    refine still (.ok ((Kernel.mk ⟨k.machine.users, k.machine.fish, (), timerCallback k.machine.ticks⟩ k.keyboard k.input k.stopped)))
      fun σ ata d => ?_
    rw [Kernel.step, if_neg (running d)]
    rfl
  | scancode byte =>
    refine still (Went.inside (keyboardCallback k.keyboard byte) >>= fun keyboard => .ok { k.on () with keyboard := keyboard })
      fun σ ata d => ?_
    rw [Kernel.step, if_neg (running d), Kernel.on]
    cases keyboardCallback k.keyboard byte <;> rfl
  | poll =>
    cases got : keyboardGetchar k.keyboard with
    | none =>
      refine still (.error .outside) fun σ ata d => ?_
      simp only [Kernel.step, if_neg (running d), Kernel.poll]
      simp only [Kernel.on, got]
      rfl
    | some answer =>
      obtain ⟨key, keyboard⟩ := answer
      cases read : readKey k.input key with
      | none =>
        refine still (.error .outside) fun σ ata d => ?_
        simp only [Kernel.step, if_neg (running d), Kernel.poll]
        simp only [Kernel.on, got, Went.inside_some, ok_bind, read]
        rfl
      | some turn =>
        obtain ⟨ended, line⟩ := turn
        cases ended with
        | false =>
          refine still (.ok { k.on () with keyboard := keyboard, input := line }) fun σ ata d => ?_
          simp only [Kernel.step, if_neg (running d), Kernel.poll]
          simp only [Kernel.on, got, Went.inside_some, ok_bind, read]
          rfl
        | true =>
          obtain ⟨talk, settled, same⟩ := Kernel.runLine_talks { k with keyboard := keyboard, input := line }
            (readKey_inside (inside (Bool.not_eq_true _ ▸ stopped)) read)
          refine ⟨talk, settled, fun σ ata d => ?_⟩
          simp only [Kernel.step, if_neg (running d), Kernel.poll]
          simp only [Kernel.on, got, Went.inside_some, ok_bind, read, if_true]
          exact same σ ata d

end Steps

section Boards

variable {b : Board} {c : Computer} {t : ShellState} {good : PioDrive → Prop} {input : Input}

/-- Where the ports serve the drive, the drive gives a wrong answer or the kernel takes its step. -/
theorem Board.step_serves (serves : pio.Serves (b.meets input) b.kernel.machine.disk.driver.ports.trace
      (b.kernel.diskAfter ataDriver input).driver.ports.trace good) :
    b.step input = .error .answer ∨ ∃ device, good device ∧
      (∀ kernel, b.kernel.step ataDriver input = .ok kernel → b.step input = .ok ⟨kernel, device⟩) ∧
      ∀ wrong, b.kernel.step ataDriver input = .error wrong → b.step input = .error (.wrong wrong) := by
  obtain ⟨events, same, ends⟩ := serves
  have accesses : b.accesses input = events := by
    rw [Board.accesses, same]
    exact List.drop_left
  by_cases honest : pio.Honest (b.meets input) events
  · obtain ⟨device, ran, holds⟩ := ends honest
    refine .inr ⟨device, holds, fun kernel went => ?_, fun wrong failed => ?_⟩
    · simp only [Board.step, accesses, if_pos honest, ran, went]
    · simp only [Board.step, accesses, if_pos honest, ran, failed]
  · refine .inl ?_
    rw [Board.step, accesses, if_neg honest]

/-- Between two steps the drive is at rest, and the driver knows whether it is there. -/
structure Board.Stands (b : Board) (c : Computer) : Prop where
  idle : b.device.task = .idle
  flushed : b.device.cache = b.device.stored
  found : b.kernel.machine.disk.driver.present = b.device.attached
  stands : c.Stands (b.kernel.on b.device.disk)

theorem Board.Stands.speaks (stands : b.Stands c) : b.device.disk.Speaks b.device b.kernel.machine.disk where
  found := stands.found
  plugged := id
  attached := rfl
  idle := stands.idle
  flushed := stands.flushed
  stored := rfl
  fine := fun _ => rfl

/-- Of a disk only the sectors count, and whether it is there. -/
theorem Drive.Carries.like {disk other : Drive} {attached : Bool} {image : Image} (carries : disk.Carries attached image)
    (fine : ∀ n, other.faulty n = false) (same : other.attached = disk.attached) (sectors : other.sectors = disk.sectors) :
    other.Carries attached image where
  fine := fine
  attached := same.trans carries.attached
  bears := by
    have bears := carries.bears
    obtain ⟨attached, present, sectors, faulty, clock⟩ := other
    subst sectors
    cases image <;> exact bears

theorem Board.stands_after {device : PioDrive} {log : AtaLog} {disk : Drive} {after : Kernel τ} (speaks : disk.Speaks device log)
    (stands : c.Stands (after.on disk)) : Board.Stands ⟨after.on log, device⟩ c where
  idle := speaks.idle
  flushed := speaks.flushed
  found := by
    have present : disk.present = c.session.attached := stands.session.present
    have attached : disk.attached = c.session.attached := stands.session.disk.attached
    exact speaks.found.trans (present.trans (attached.symm.trans speaks.attached.symm))
  stands := by
    have session := stands.session
    have carries : disk.Carries c.session.attached c.session.image := session.disk
    refine ⟨⟨session.users, session.accepted, session.tree, carries.like (fun _ => rfl) speaks.attached speaks.stored, ?_⟩,
      stands.stopped, stands.waits, stands.decodes, stands.typed⟩
    exact speaks.attached.trans carries.attached

theorem Kernel.diskAfter_talk {k : Kernel σ} {ata : Ata σ} (on : input ≠ .power) {talk : KernelTalk} (settled : talk.Settled)
    (same : k.step ata input = talk.play ata k.machine.disk) :
    k.diskAfter ata input = (talk.run (DiskCall.run ata) k.machine.disk).2 := by
  have after : k.diskAfter ata input = Went.disk k.machine.disk (k.step ata input) := by
    cases input with
    | power => exact absurd rfl on
    | _ => rfl
  rw [after, same, KernelTalk.play]
  cases went : (talk.run (DiskCall.run ata) k.machine.disk).1 with
  | error wrong => exact (settled σ ata k.machine.disk wrong went).symm
  | ok kernel => rfl

/-- Over the ports a step comes to what it comes to over the disk that the drive stands for. -/
theorem Board.step_agrees {log : AtaLog} {disk : Drive} {talk : KernelTalk} (speaks : disk.Speaks (b.meets input) log)
    (trace : b.kernel.machine.disk.driver.ports.trace = log.driver.ports.trace)
    (steps : b.kernel.step ataDriver input = talk.play ataDriver log)
    (leaves : b.kernel.diskAfter ataDriver input = (talk.run (DiskCall.run ataDriver) log).2) :
    b.step input = .error .answer ∨
      (∃ device' log' disk', ∃ kernel : Kernel Unit, disk'.Speaks device' log' ∧ talk.play drive disk = .ok (kernel.on disk') ∧
        b.step input = .ok ⟨kernel.on log', device'⟩) ∨
      ∃ wrong, talk.play drive disk = .error wrong ∧ b.step input = .error (.wrong wrong) := by
  have serves := speaks.talk talk
  rw [← leaves, ← trace] at serves
  rcases Board.step_serves serves with lied | ⟨device', ⟨same, speaks'⟩, goes, fails⟩
  · exact .inl lied
  rw [steps, KernelTalk.play, same] at goes fails
  rw [leaves] at speaks'
  rw [KernelTalk.play]
  cases went : (talk.run (DiskCall.run drive) disk).1 with
  | error wrong =>
    rw [went] at fails
    exact .inr (.inr ⟨wrong, rfl, fails wrong rfl⟩)
  | ok kernel =>
    rw [went] at goes
    exact .inr (.inl ⟨device', _, _, kernel, speaks', rfl, goes _ rfl⟩)

/-- Every other step goes on from what the last one has left. -/
theorem Board.Stands.step (stands : b.Stands c) (on : input ≠ .power) :
    b.step input = .error .answer ∨
      (∀ next, c.step input = some next → ∃ after, b.step input = .ok after ∧ after.Stands next) ∧
        (c.step input = none → b.step input = .error (.wrong (.undefined .overflow))) := by
  have inside : b.kernel.stopped = false → b.kernel.input.screen.Inside := by
    intro running
    obtain ⟨v, n, editing⟩ := (stands.stands.typed (stands.stands.stopped.symm.trans running)).editing
    exact editing.inside
  obtain ⟨talk, settled, same⟩ := b.kernel.step_talks inside on
  have steps : b.kernel.step ataDriver input = talk.play ataDriver b.kernel.machine.disk := same AtaLog ataDriver b.kernel.machine.disk
  have meant := same Drive drive b.device.disk
  have speaks : b.device.disk.Speaks (b.meets input) b.kernel.machine.disk := by
    rw [Board.meets, if_neg on]
    exact stands.speaks
  rcases Board.step_agrees speaks rfl steps (Kernel.diskAfter_talk on settled steps) with
    lied | ⟨device', log', disk', kernel, speaks', went, ran⟩ | ⟨wrong, failed, ran⟩
  · exact .inl lied
  · refine .inr ⟨fun next moves => ?_, fun none => ?_⟩
    · obtain ⟨after, done, stands'⟩ := kernel_simulates.goes _ c input next stands.stands moves
      cases (meant.trans went).symm.trans done
      exact ⟨_, ran, Board.stands_after speaks' stands'⟩
    · obtain ⟨wrong, failed, _⟩ := kernel_simulates.fails _ c input stands.stands none
      cases (meant.trans went).symm.trans failed
  · refine .inr ⟨fun next moves => ?_, fun none => ?_⟩
    · obtain ⟨after, done, _⟩ := kernel_simulates.goes _ c input next stands.stands moves
      cases (meant.trans failed).symm.trans done
    · obtain ⟨wrong', failed', rfl⟩ := kernel_simulates.fails _ c input stands.stands none
      cases (meant.trans failed).symm.trans failed'
      exact ran

end Boards

/-- A kernel in a memory full of zeros, on a drive that holds nothing of Fish. -/
def Board.cold : Board := ⟨Kernel.cold.on ⟨⟨false, answering⟩, []⟩, .lettered⟩

end Seaweed
