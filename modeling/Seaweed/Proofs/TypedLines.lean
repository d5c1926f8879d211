import Seaweed.Proofs.KernelStorage

/-! From the bytes of the keyboard to the shell: a line is executed as it was typed, however
its keys fall among the ticks and the turns of the loop. -/

namespace Seaweed
open Library

variable {k last : Kernel Drive} {c : Computer} {t : ShellState} {inputs : List Input} {body : List Int32}

section Keys

/-- The bytes that come from the keyboard in a run. -/
def typedBytes (inputs : List Input) : List UInt8 :=
  inputs.filterMap fun
    | .scancode byte => some byte
    | _ => none

@[simp] theorem typedBytes_nil : typedBytes [] = [] := rfl

@[simp] theorem typedBytes_scancode (byte : UInt8) (inputs : List Input) :
    typedBytes (.scancode byte :: inputs) = byte :: typedBytes inputs := rfl

@[simp] theorem typedBytes_tick (inputs : List Input) : typedBytes (.tick :: inputs) = typedBytes inputs := rfl

/-- The buffer has room whenever a byte comes. -/
def HasRoom (k : Kernel Drive) (inputs : List Input) : Prop :=
  ∀ front byte rest middle, inputs = front ++ .scancode byte :: rest → runKernel drive k front = .ok middle →
    middle.stopped = false → following middle.keyboard.head ≠ middle.keyboard.tail

theorem HasRoom.first {byte : UInt8} (room : HasRoom k (.scancode byte :: inputs)) (running : k.stopped = false) :
    following k.keyboard.head ≠ k.keyboard.tail := room [] byte inputs k rfl rfl running

theorem HasRoom.rest {input : Input} {next : Kernel Drive} (room : HasRoom k (input :: inputs))
    (step : Kernel.step drive k input = .ok next) : HasRoom next inputs := by
  intro front byte rest middle same ran
  refine room (input :: front) byte rest middle (congrArg (input :: ·) same) ?_
  exact (runSteps_cons step).trans ran

theorem Waits.full_iff {keyboard : Keyboard} {waiting : List Int32} (waits : Waits keyboard waiting) :
    following keyboard.head = keyboard.tail ↔ waiting.length = 127 := by
  obtain ⟨history, released, ring, rfl, head, tail⟩ := waits
  have ahead := ring.ahead
  have full : following keyboard.head = keyboard.tail ↔ history.length + 1 = released + bufferSize := by
    rw [← ring.full_iff, ← UInt32.toNat_inj, following_toNat, head, tail, Nat.mod_add_mod]
  rw [full, List.length_drop]
  simp only [bufferSize]
  omega

theorem Waits.empty_iff {keyboard : Keyboard} {waiting : List Int32} (waits : Waits keyboard waiting) :
    keyboard.head = keyboard.tail ↔ waiting = [] := by
  obtain ⟨history, released, ring, rfl, head, tail⟩ := waits
  have ahead := ring.ahead
  rw [← UInt32.toNat_inj, head, tail, ring.empty_iff, List.drop_eq_nil_iff]
  omega

theorem Waits.queue_room {keyboard : Keyboard} {waiting : List Int32} (waits : Waits keyboard waiting)
    (room : following keyboard.head ≠ keyboard.tail) (key : Option Int32) :
    Computer.queue waiting key = waiting ++ key.toList := by
  have short := waits.short
  have few : waiting.length < 127 := lt_of_le_of_ne short (mt waits.full_iff.mpr room)
  cases key with
  | none => exact (List.append_nil _).symm
  | some key => exact if_pos few

end Keys

section Runs

/-- What a step of a run that ends well was for the computer. -/
theorem Computer.Stands.stepped {input : Input} (stands : c.Stands k) (ran : runKernel drive k (input :: inputs) = .ok last) :
    ∃ next middle, c.step input = some next ∧ Kernel.step drive k input = .ok middle ∧ next.Stands middle ∧
      runKernel drive middle inputs = .ok last := by
  cases steps : c.step input with
  | none =>
    obtain ⟨wrong, failed, _⟩ := kernel_simulates.fails k c input stands steps
    cases ran.symm.trans (runSteps_failed failed)
  | some next =>
    obtain ⟨middle, went, stands'⟩ := kernel_simulates.goes k c input next stands steps
    exact ⟨next, middle, rfl, went, stands', (runSteps_cons went).symm.trans ran⟩

end Runs

section Turns

/-- Only the clock and the keyboard have gone on. -/
structure Kernel.Undisturbed {σ : Type} (k after : Kernel σ) : Prop where
  machine : after.machine = { k.machine with ticks := after.machine.ticks }
  input : after.input = k.input
  stopped : after.stopped = k.stopped

theorem Kernel.Undisturbed.refl {σ : Type} (k : Kernel σ) : k.Undisturbed k := ⟨rfl, rfl, rfl⟩

theorem Kernel.Undisturbed.trans {σ : Type} {k middle last : Kernel σ} (first : k.Undisturbed middle)
    (rest : middle.Undisturbed last) : k.Undisturbed last where
  machine := by rw [rest.machine, first.machine]
  input := rest.input.trans first.input
  stopped := rest.stopped.trans first.stopped

/-- No turn of the run gives a line to the shell. -/
def NeverEnters (k : Kernel Drive) (inputs : List Input) : Prop :=
  ∀ front rest middle, inputs = front ++ .poll :: rest → runKernel drive k front = .ok middle → middle.entered = none

theorem NeverEnters.nil : NeverEnters k [] := by
  intro front rest middle same
  cases front <;> cases same

theorem NeverEnters.cons {input : Input} {next : Kernel Drive} (here : input = .poll → k.entered = none)
    (step : Kernel.step drive k input = .ok next) (later : NeverEnters next inputs) : NeverEnters k (input :: inputs) := by
  intro front rest middle same ran
  cases front with
  | nil =>
    obtain ⟨poll, _⟩ := List.cons.inj same
    cases ran
    exact here poll
  | cons first front =>
    obtain ⟨rfl, same'⟩ := List.cons.inj same
    exact later front rest middle same' ((runSteps_cons step).symm.trans ran)

theorem Kernel.step_running {σ : Type} {ata : Ata σ} {k : Kernel σ} (running : k.stopped = false) :
    Kernel.step ata k .poll = k.poll ata := by
  simp only [Kernel.step, running, Bool.false_eq_true, if_false]

/-- Neither a tick nor a byte from the keyboard disturbs, and nothing does once the shell has stopped. -/
theorem Kernel.step_undisturbed {σ : Type} {ata : Ata σ} {k after : Kernel σ} {input : Input} (on : input ≠ .power)
    (quiet : input = .poll → k.stopped = true) (step : Kernel.step ata k input = .ok after) : k.Undisturbed after := by
  cases stopped : k.stopped with
  | true =>
    cases input with
    | power => exact absurd rfl on
    | _ =>
      simp only [Kernel.step, stopped, if_true] at step
      cases step
      exact .refl k
  | false =>
    cases input with
    | power => exact absurd rfl on
    | poll => cases (quiet rfl).symm.trans stopped
    | tick =>
      simp only [Kernel.step, stopped, Bool.false_eq_true, if_false] at step
      cases step
      exact ⟨rfl, rfl, stopped.symm⟩
    | scancode byte =>
      simp only [Kernel.step, stopped, Bool.false_eq_true, if_false] at step
      obtain ⟨keyboard, _, same⟩ := bind_inv step
      cases same
      exact ⟨rfl, rfl, stopped.symm⟩

/-- A turn that finds no key. -/
theorem Computer.Stands.idle (stands : c.Stands k) (running : c.stopped = false) (empty : c.waiting = []) :
    Kernel.step drive k .poll = .ok k ∧ k.entered = none := by
  have waits := stands.waits running
  rw [empty] at waits
  have none : readKey k.input 0 = some (false, k.input) := rfl
  constructor
  · rw [Kernel.step_running (stands.stopped.trans running), Kernel.poll, waits.getchar_none, Went.inside_some, ok_bind]
    simp only [none, Went.inside_some, ok_bind, Bool.false_eq_true, if_false]
  · rw [stands.entered, Computer.ready, empty]
    exact if_neg fun ready => by cases ready.2

theorem readKey_printable {s after : LineInput} {letter : UInt8} {ended : Bool} (low : 32 ≤ letter) (high : letter ≤ 126)
    (short : s.length < 255) (read : readKey s (Int32.ofNat letter.toNat) = some (ended, after)) :
    ended = false ∧ vgaPutchar s.screen letter = some after.screen := by
  obtain ⟨back, enter, lower, upper, same⟩ := printable_key low high
  have zero : Int32.ofNat letter.toNat ≠ 0 := fun none => absurd (none ▸ lower) (by decide)
  have range : ¬ (255 < Int32.ofNat letter.toNat ∨ Int32.ofNat letter.toNat < 32) := by
    rintro (above | below)
    · exact absurd above (Int32.not_lt.mpr upper)
    · exact absurd below (Int32.not_lt.mpr lower)
  have place : s.length < lineMax := Nat.lt_of_lt_of_le short (by decide)
  have full : ¬ lineMax - 1 ≤ s.length := Nat.not_le.mpr short
  rw [readKey, if_neg zero, if_neg enter, if_neg back, if_neg range, if_neg full, same, LineInput.store, dif_pos place] at read
  obtain ⟨stored, store, read⟩ := Option.bind_eq_some_iff.mp read
  obtain ⟨screen, put, read⟩ := Option.bind_eq_some_iff.mp read
  cases store
  cases read
  exact ⟨rfl, put⟩

/-- A turn that finds a printable character writes it to the screen. -/
theorem Computer.Stands.letter (stands : c.Stands k) (running : c.stopped = false) {letter : UInt8} {rest : List Int32}
    (waiting : c.waiting = Int32.ofNat letter.toNat :: rest) (low : 32 ≤ letter) (high : letter ≤ 126)
    (short : c.held.length < 255) {after : Kernel Drive} (step : Kernel.step drive k .poll = .ok after) :
    Computer.Stands { c with waiting := rest, held := c.held ++ [letter] } after ∧ k.entered = none ∧
      after.machine = k.machine ∧ vgaPutchar k.input.screen letter = some after.input.screen := by
  have more := (printable_key low high).2.1
  have steps : c.step .poll = some { c with waiting := rest, held := c.held ++ [letter] } := by
    rw [Computer.step_poll running, Computer.poll_key waiting more, editKey_printable low high short]
  obtain ⟨same, done, stands'⟩ := kernel_simulates.goes k c .poll _ stands steps
  cases done.symm.trans step
  have waits := stands.waits running
  rw [waiting] at waits
  obtain ⟨keyboard, got, _, _⟩ := waits.getchar_some
  obtain ⟨v, n, editing⟩ := (stands.typed running).editing
  rw [Kernel.step_running (stands.stopped.trans running), Kernel.poll, got, Went.inside_some, ok_bind] at step
  obtain ⟨⟨ended, input⟩, read, step⟩ := bind_inv step
  obtain ⟨rfl, put⟩ := readKey_printable low high (editing.length.symm ▸ short) (Went.inside_inv read)
  cases step
  refine ⟨stands', ?_, rfl, put⟩
  rw [stands.entered, Computer.ready, waiting]
  exact if_neg fun ready => more (Option.some.inj ready.2)

end Turns

section Lines

/-- Bytes that complete no key leave a shell that waits for one as it is. -/
theorem Computer.Stands.quiet (stands : c.Stands k) (on : .power ∉ inputs) (empty : c.stopped = false → c.waiting = [])
    (room : HasRoom k inputs) (silent : c.stopped = false → (c.decoder.keys (typedBytes inputs)).2 = [])
    (ran : runKernel drive k inputs = .ok last) : NeverEnters k inputs ∧ k.Undisturbed last := by
  induction inputs generalizing k c with
  | nil =>
    cases ran
    exact ⟨.nil, .refl _⟩
  | cons input inputs ih =>
    obtain ⟨power, on'⟩ := not_or.mp (List.mem_cons.not.mp on)
    obtain ⟨next, middle, steps, went, stands', ran'⟩ := stands.stepped ran
    have same : (next.stopped = false → next.waiting = [] ∧ (next.decoder.keys (typedBytes inputs)).2 = []) ∧
        (input = .poll → k.entered = none) ∧ k.Undisturbed middle := by
      by_cases running : c.stopped = false
      · have silent' := silent running
        cases input with
        | power => exact absurd rfl power
        | tick =>
          cases steps
          exact ⟨fun _ => ⟨empty running, silent'⟩, fun poll => (by cases poll),
            Kernel.step_undisturbed (Ne.symm power) (fun poll => (by cases poll)) went⟩
        | poll =>
          obtain ⟨idle, entered⟩ := stands.idle running (empty running)
          cases idle.symm.trans went
          rw [Computer.step_poll running, Computer.poll, empty running] at steps
          cases steps
          exact ⟨fun _ => ⟨empty running, silent'⟩, fun _ => entered, .refl k⟩
        | scancode byte =>
          rw [typedBytes_scancode, Decoder.keys_cons, List.append_eq_nil_iff] at silent'
          rw [Computer.step_scancode running, (stands.waits running).queue_room (room.first (stands.stopped.trans running)), silent'.1, empty running] at steps
          cases steps
          exact ⟨fun _ => ⟨rfl, silent'.2⟩, fun poll => (by cases poll),
            Kernel.step_undisturbed (Ne.symm power) (fun poll => (by cases poll)) went⟩
      · have stopped := Bool.not_eq_false _ ▸ running
        obtain ⟨same, _⟩ := stands.asleep stopped (Ne.symm power)
        cases same.symm.trans steps
        refine ⟨fun awake => absurd awake running, fun _ => ?_, Kernel.step_undisturbed (Ne.symm power) (fun _ => stands.stopped.trans stopped) went⟩
        rw [stands.entered, Computer.ready]
        exact if_neg fun ready => running ready.1
    obtain ⟨keeps, entered, first⟩ := same
    obtain ⟨never, rest⟩ := ih stands' on' (fun awake => (keeps awake).1) (room.rest went) (fun awake => (keeps awake).2) ran'
    exact ⟨.cons entered went never, first.trans rest⟩

/-- The text has been written to the screen, and nothing else has happened to the files. -/
structure Kernel.Echoes (k after : Kernel Drive) (text : List UInt8) : Prop where
  machine : after.machine = { k.machine with ticks := after.machine.ticks }
  screen : vgaWrite k.input.screen text = some after.input.screen

theorem vgaWrite_append (v : Vga) (first rest : List UInt8) :
    vgaWrite v (first ++ rest) = vgaWrite v first >>= fun v => vgaWrite v rest := List.foldlM_append ..

theorem Kernel.Undisturbed.echoes {after : Kernel Drive} (same : k.Undisturbed after) : k.Echoes after [] where
  machine := same.machine
  screen := congrArg (fun input : LineInput => some input.screen) same.input.symm

theorem Kernel.Echoes.trans {middle after : Kernel Drive} {text more : List UInt8} (first : k.Echoes middle text)
    (rest : middle.Echoes after more) : k.Echoes after (text ++ more) where
  machine := by rw [rest.machine, first.machine]
  screen := by
    rw [vgaWrite_append, first.screen]
    exact rest.screen

/-- One turn of the run, and no other, gives the line to the shell, when the text has been
written to the screen; and nothing more happens after it. -/
def Enters (k : Kernel Drive) (inputs : List Input) (last : Kernel Drive) (text : List UInt8) (line : CString) : Prop :=
  ∃ front rest before after, inputs = front ++ .poll :: rest ∧ runKernel drive k front = .ok before ∧
    Kernel.step drive before .poll = .ok after ∧ runKernel drive after rest = .ok last ∧
    NeverEnters k front ∧ before.entered = some line ∧ NeverEnters after rest ∧ k.Echoes before text ∧ after.Undisturbed last

theorem Enters.cons {input : Input} {middle : Kernel Drive} {text more : List UInt8} {line : CString}
    (here : input = .poll → k.entered = none) (step : Kernel.step drive k input = .ok middle) (first : k.Echoes middle text)
    (later : Enters middle inputs last more line) : Enters k (input :: inputs) last (text ++ more) line := by
  obtain ⟨front, rest, before, after, rfl, ran, turn, ran', never, entered, never', echoes, quiet⟩ := later
  exact ⟨input :: front, rest, before, after, rfl, (runSteps_cons step).trans ran, turn, ran', .cons here step never, entered,
    never', first.trans echoes, quiet⟩

end Lines

/-- The shell waits for a line, and no key is down or waits. -/
structure Kernel.Prompts {σ : Type} (k : Kernel σ) : Prop where
  running : k.stopped = false
  decoder : k.keyboard.decoder = .start
  empty : k.keyboard.head = k.keyboard.tail
  fresh : k.input.length = 0

theorem Computer.Stands.prompts (stands : c.Stands k) (prompts : k.Prompts) :
    c.stopped = false ∧ c.decoder = .start ∧ c.waiting = [] ∧ c.held = [] := by
  have running := stands.stopped.symm.trans prompts.running
  obtain ⟨v, n, editing⟩ := (stands.typed running).editing
  refine ⟨running, (stands.decodes running).symm.trans prompts.decoder, (stands.waits running).empty_iff.mp prompts.empty, ?_⟩
  exact List.length_eq_zero_iff.mp (editing.length.symm.trans prompts.fresh)

end Seaweed
