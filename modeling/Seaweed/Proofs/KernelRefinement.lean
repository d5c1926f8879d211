import Seaweed.Proofs.KeyDecoding
import Seaweed.Proofs.LineEditing
import Seaweed.Proofs.ShellLines

/-! The kernel is the computer that it stands for: in every order of interrupts, turns of
the loop and starts it takes the same steps, and it goes wrong only in a line that has no
outcome. -/

namespace Seaweed
open Library

variable {v : Vga} {k : Kernel Drive} {c : Computer} {t : ShellState} {held : List UInt8} {s : LineInput} {n : ℕ}

section Drawing

theorem Vga.Inside.putchar (inside : v.Inside) (letter : UInt8) : ∃ after, vgaPutchar v letter = some after ∧ after.Inside :=
  have put := inside.put letter
  ⟨_, vgaPutchar_eq inside letter, put.row, put.col⟩

theorem Vga.Inside.write (inside : v.Inside) (text : List UInt8) : ∃ after, vgaWrite v text = some after ∧ after.Inside :=
  foldlM_keeps (fun _ letter _ kept => kept.putchar letter) inside

theorem vgaClear_inside (v : Vga) : ∃ after, vgaClear v = some after ∧ after.Inside :=
  ⟨_, vgaClear_eq v, Nat.zero_lt_succ _, Nat.zero_lt_succ _⟩

theorem Vga.Inside.draw (inside : v.Inside) (event : Event) : ∃ after, event.draw v = some after ∧ after.Inside := by
  cases event with
  | write text => exact inside.write _
  | chars text => exact inside.write text
  | color foreground background => exact ⟨_, rfl, inside.row, inside.col⟩
  | clear => exact vgaClear_inside v
  | _ => exact ⟨v, rfl, inside⟩

theorem Vga.Inside.drawAll (inside : v.Inside) (events : List Event) : ∃ after, drawAll v events = some after ∧ after.Inside :=
  foldlM_keeps (fun _ event _ kept => kept.draw event) inside

end Drawing

/-- What is being typed: the characters held, which the array and the screen agree on. -/
structure Typed (held : List UInt8) (s : LineInput) : Prop where
  editing : ∃ v n, Editing v held s n
  letters : ∀ letter ∈ held, letter ≠ 0

/-- The kernel stands for the computer. Once it has stopped only the files and the disk count. -/
structure Computer.Stands (c : Computer) (k : Kernel Drive) : Prop where
  session : c.session.Stands k.machine
  stopped : k.stopped = c.stopped
  waits : c.stopped = false → Waits k.keyboard c.waiting
  decodes : c.stopped = false → k.keyboard.decoder = c.decoder
  typed : c.stopped = false → Typed c.held k.input

section Lines

theorem Typed.fresh (line : Buffer lineMax) (inside : v.Inside) : Typed [] ⟨line, 0, v⟩ where
  editing := ⟨v, 0, readLine_start line inside⟩
  letters := fun _ member => by cases member

theorem editKey_letters (letters : ∀ letter ∈ held, letter ≠ 0) (key : Int32) : ∀ letter ∈ editKey held key, letter ≠ 0 := by
  unfold editKey
  split
  · intro letter member
    exact letters letter (List.mem_of_mem_dropLast member)
  · split
    next printable =>
      intro letter member
      rcases List.mem_append.mp member with old | new
      · exact letters letter old
      · have bound := @key_letter key (Int32.not_lt.mpr printable.1) (Int32.not_lt.mpr printable.2.1)
        rintro rfl
        rw [← List.mem_singleton.mp new] at bound
        cases bound
    next => exact letters

theorem Typed.turn (typed : Typed held s) {key : Int32} (more : key ≠ 10) :
    ∃ after, readKey s key = some (false, after) ∧ Typed (editKey held key) after := by
  obtain ⟨v, n, editing⟩ := typed.editing
  obtain ⟨after, n', read, editing'⟩ := editing.turn more
  exact ⟨after, read, ⟨v, n', editing'⟩, editKey_letters typed.letters key⟩

/-- An array with characters at its front and a terminator behind them. -/
theorem Buffer.bytes_front {size : ℕ} (line : Buffer size) (place : held.length < size)
    (front : ∀ j (inside : j < size) letter, held[j]? = some letter → line ⟨j, inside⟩ = letter)
    (zero : line ⟨held.length, place⟩ = 0) : line.bytes = held ++ 0 :: line.bytes.drop (held.length + 1) := by
  have inside : held.length < line.bytes.length := by rwa [line.bytes_length]
  have taken : line.bytes.take held.length = held := by
    apply List.ext_getElem
    · rw [List.length_take]
      omega
    · intro i low early
      simp only [List.getElem_take, Buffer.bytes, List.getElem_ofFn]
      exact front i (by omega) held[i] (List.getElem?_eq_getElem early)
  have behind : line.bytes.drop held.length = 0 :: line.bytes.drop (held.length + 1) := by
    rw [List.drop_eq_getElem_cons inside]
    simp only [Buffer.bytes, List.getElem_ofFn, zero]
  rw [← behind]
  conv => lhs; rw [← List.take_append_drop held.length line.bytes, taken]

/-- Enter puts the terminator behind the characters held. -/
theorem Typed.enter (typed : Typed held s) :
    ∃ after, readKey s 10 = some (true, after) ∧ after.screen.Inside ∧ 0 ∈ after.line.bytes ∧
      CString.ofBytes after.line.bytes = CString.ofBytes held := by
  obtain ⟨v, n, editing⟩ := typed.editing
  obtain ⟨screen, written, inside⟩ := editing.inside.putchar 10
  have length := editing.length
  have room : s.length < lineMax := by
    have short := editing.short
    simp only [lineMax]
    omega
  have whole := @Buffer.bytes_front held lineMax (Function.update s.line ⟨s.length, room⟩ 0 : Buffer lineMax)
    (by omega) (fun j place letter found => by
      have early := (List.getElem?_eq_some_iff.mp found).1
      rw [Function.update_of_ne fun same => by have := congrArg Fin.val same; simp only at this; omega]
      exact editing.line j place letter found)
    (by simp only [← length, Function.update_self])
  refine ⟨⟨Function.update s.line ⟨s.length, room⟩ 0, s.length, screen⟩, ?_, inside, ?_, ?_⟩
  · rw [readKey, if_neg (by decide), if_pos rfl, written]
    simp only [LineInput.store, dif_pos room, Option.bind_eq_bind, Option.bind_some]
  · rw [whole]
    exact List.mem_append_right _ List.mem_cons_self
  · have terminated : 0 ∉ held := fun zero => typed.letters 0 zero rfl
    have text := CString.ofBytes_append ⟨held, terminated⟩
      (Buffer.bytes (Function.update s.line ⟨s.length, room⟩ 0 : Buffer lineMax) |>.drop (held.length + 1))
    simp only [CString.bytes, List.append_assoc, List.singleton_append] at text
    rw [whole, text]
    exact (CString.ofBytes_chars ⟨held, terminated⟩).symm

end Lines

section Steps

/-- The prompt, with an empty line behind it. -/
theorem Kernel.ask_stands (stands : t.Stands k.machine) (inside : k.input.screen.Inside) (running : k.stopped = false)
    {waiting : List Int32} (waits : Waits k.keyboard waiting) :
    ∃ after, k.ask = .ok after ∧ Computer.Stands ⟨t, k.keyboard.decoder, waiting, [], false⟩ after := by
  obtain ⟨screen, drawn, inside'⟩ := inside.drawAll (promptText k.machine.users)
  rw [Kernel.ask, drawn]
  refine ⟨_, rfl, stands, running, fun _ => waits, fun _ => rfl, fun _ => ?_⟩
  exact .fresh k.input.line inside'

theorem ShellState.start_unknown {t : ShellState} (none : t.attached = false ∨ ∀ tree, t.image ≠ .tree tree) :
    t.start = { t with users := userInit, tree := .bare } := by
  unfold ShellState.start
  split
  next tree attached image =>
    rcases none with absent | other
    · cases absent.symm.trans attached
    · exact absurd image (other tree)
  next => rfl

theorem ShellState.start_tree {t : ShellState} {tree : FileTree} (attached : t.attached = true) (image : t.image = .tree tree) :
    t.start = { t with users := tree.names, tree := tree } := by
  unfold ShellState.start
  split
  next other _ same =>
    cases image.symm.trans same
    rfl
  next none => exact absurd image (none tree attached)

/-- The disk that `ata_init` has looked for. -/
def Drive.probed (d : Drive) : Drive := { d with present := d.attached }

/-- What the start makes of the files and the names. -/
theorem startFiles_stands {d : Drive} (disk : d.Carries t.attached t.image) :
    ∃ said u s d', startFiles drive d = .ok (said, u, s, d') ∧ ∀ ticks, t.start.Stands ⟨u, s, d', ticks⟩ := by
  have init : drive.init d = (d.attached, d.probed) := rfl
  have ready : d.probed.Carries t.attached t.image := ⟨disk.fine, disk.attached, disk.bears⟩
  have present : d.probed.present = t.attached := disk.attached
  have fresh : ∀ n ticks, (t.attached = false ∨ ∀ tree, t.image ≠ .tree tree) →
      t.start.Stands ⟨userInit, fishInit, d.probed.ticks n, ticks⟩ := by
    intro n ticks none
    rw [ShellState.start_unknown none]
    exact ⟨rfl, userInit_accepted, fishInit_stands, ready.later n, present⟩
  unfold startFiles
  rw [init, disk.attached]
  cases attached : t.attached with
  | false => exact ⟨_, _, _, _, rfl, fun ticks => fresh 0 ticks (.inl attached)⟩
  | true =>
    have spinning : d.probed.Carries true t.image := attached ▸ ready
    obtain ⟨n, outcome⟩ := spinning.fishLoad (present.trans attached) fishInit
    simp only [if_true]
    rcases outcome with ⟨image, done⟩ | ⟨image, done⟩ | ⟨tree, image, done, loaded⟩
    · rw [done]
      exact ⟨_, _, _, _, rfl, fun ticks => fresh n ticks (.inr fun tree same => by cases image.symm.trans same)⟩
    · rw [done]
      exact ⟨_, _, _, _, rfl, fun ticks => fresh n ticks (.inr fun tree same => by cases image.symm.trans same)⟩
    · obtain ⟨read, named⟩ := loaded.userLoad
      rw [done]
      simp only [if_true, named]
      refine ⟨_, _, _, _, rfl, fun ticks => ?_⟩
      rw [ShellState.start_tree attached image]
      exact ⟨rfl, tree.names_accepted, loaded, ready.later n, present⟩

/-- A start needs nothing but the disk. -/
theorem kernelMain_stands (disk : k.machine.disk.Carries t.attached t.image) :
    ∃ after, kernelMain drive k = .ok after ∧ (Computer.start t).Stands after := by
  obtain ⟨cleared, init, inside⟩ := vgaClear_inside (vgaSetColor k.input.screen 7 0)
  obtain ⟨opened, opening, inside'⟩ := inside.drawAll openingText
  obtain ⟨said, u, s, d, started, stands⟩ := startFiles_stands disk
  obtain ⟨screen, drawn, inside''⟩ := inside'.drawAll said
  have ready : vgaInit k.input.screen = some cleared := init
  rw [kernelMain, ready, Went.inside_some, ok_bind, opening, Went.inside_some, ok_bind, started]
  simp only [Ran.ofChecked_ok, Went.ofRan_ok, ok_bind, drawn, Went.inside_some]
  exact Kernel.ask_stands (k := ⟨⟨u, s, d, 0⟩, keyboardInit k.keyboard, ⟨k.input.line, 0, screen⟩, false⟩)
    (stands 0) inside'' rfl (Waits.init k.keyboard)

/-- A line is executed, and the shell asks for the next one unless the command was its last. -/
theorem Kernel.runLine_stands (stands : t.Stands k.machine) (inside : k.input.screen.Inside) (running : k.stopped = false)
    {waiting : List Int32} (waits : Waits k.keyboard waiting) (terminated : 0 ∈ k.input.line.bytes)
    {next : ShellState} {ended : Bool} (meant : t.line (CString.ofBytes k.input.line.bytes) = some (next, ended)) :
    ∃ after, k.runLine drive = .ok after ∧ Computer.Stands ⟨next, k.keyboard.decoder, waiting, [], ended⟩ after := by
  obtain ⟨out, machine, done, ends, stands'⟩ := stands.execute terminated (line_short k.input.line) meant
  obtain ⟨screen, drawn, inside'⟩ := inside.drawAll out
  rw [Kernel.runLine, done]
  simp only [Went.ofRan_ok, ok_bind, drawn, Went.inside_some, ends]
  cases ended with
  | true =>
    rw [if_pos rfl]
    refine ⟨_, rfl, stands', rfl, ?_, ?_, ?_⟩ <;> exact fun running => by cases running
  | false =>
    rw [if_neg (by decide)]
    exact Kernel.ask_stands (k := { k with machine := machine, input := { k.input with screen := screen } })
      stands' inside' running waits

theorem Computer.poll_enter {rest : List Int32} (waiting : c.waiting = 10 :: rest) :
    c.poll = (c.session.line (CString.ofBytes c.held)).map fun outcome =>
      { c with session := outcome.1, waiting := rest, held := [], stopped := outcome.2 } := by
  rw [Computer.poll, waiting]
  cases c.session.line (CString.ofBytes c.held) <;> rfl

theorem Computer.poll_key {key : Int32} {rest : List Int32} (waiting : c.waiting = key :: rest) (more : key ≠ 10) :
    c.poll = some { c with waiting := rest, held := editKey c.held key } := by
  rw [Computer.poll, waiting]
  exact if_neg more

/-- A turn of the loop that reads Enter gives the line to the shell. -/
theorem Computer.Stands.enter (stands : c.Stands k) (running : c.stopped = false) {rest : List Int32}
    (waiting : c.waiting = 10 :: rest) :
    (∀ next, c.poll = some next → ∃ after, k.poll drive = .ok after ∧ next.Stands after) ∧
      (c.poll = none → k.poll drive = .error (.undefined .overflow)) := by
  have waits := stands.waits running
  rw [waiting] at waits
  obtain ⟨keyboard, got, waits', same⟩ := waits.getchar_some
  obtain ⟨input, read, inside, terminated, text⟩ := (stands.typed running).enter
  rw [Computer.poll_enter waiting, Kernel.poll, got, Went.inside_some, ok_bind]
  simp only [read, Went.inside_some, ok_bind, if_true]
  cases meant : c.session.line (CString.ofBytes c.held) with
  | none =>
    refine ⟨fun next ends => (by cases ends), fun _ => ?_⟩
    rw [← text] at meant
    have wrong := ShellState.Stands.execute_wrong (m := k.machine) terminated meant
    simp only [Kernel.runLine, wrong]
    rfl
  | some outcome =>
    refine ⟨fun next ends => ?_, fun ends => by cases ends⟩
    cases ends
    rw [← text] at meant
    rw [← stands.decodes running, ← same]
    exact Kernel.runLine_stands (k := { k with keyboard := keyboard, input := input }) stands.session inside
      (stands.stopped.trans running) waits' terminated meant

/-- A turn of the loop takes the next key to the line, or the whole line to the shell. -/
theorem Computer.Stands.poll (stands : c.Stands k) (running : c.stopped = false) :
    (∀ next, c.poll = some next → ∃ after, k.poll drive = .ok after ∧ next.Stands after) ∧
      (c.poll = none → k.poll drive = .error (.undefined .overflow)) := by
  have waits := stands.waits running
  cases waiting : c.waiting with
  | nil =>
    have same : c.poll = some c := by
      rw [Computer.poll, waiting]
    have idle : readKey k.input 0 = some (false, k.input) := rfl
    rw [waiting] at waits
    refine ⟨fun next steps => ?_, fun none => by cases same.symm.trans none⟩
    cases same.symm.trans steps
    rw [Kernel.poll, waits.getchar_none, Went.inside_some, ok_bind]
    simp only [idle, Went.inside_some, ok_bind]
    exact ⟨_, rfl, stands⟩
  | cons key rest =>
    by_cases enter : key = 10
    · subst enter
      exact stands.enter running waiting
    · rw [waiting] at waits
      obtain ⟨keyboard, got, waits', same⟩ := waits.getchar_some
      obtain ⟨input, read, typed⟩ := (stands.typed running).turn enter
      rw [Computer.poll_key waiting enter, Kernel.poll, got, Went.inside_some, ok_bind]
      simp only [read, Went.inside_some, ok_bind]
      refine ⟨fun next ends => ?_, fun none => by cases none⟩
      cases ends
      exact ⟨_, rfl, stands.session, stands.stopped, fun _ => waits', fun _ => same.trans (stands.decodes running),
        fun _ => typed⟩

theorem Computer.step_scancode (running : c.stopped = false) (byte : UInt8) :
    c.step (.scancode byte) =
      some { c with decoder := (c.decoder.feed byte).1, waiting := Computer.queue c.waiting (c.decoder.feed byte).2 } := by
  simp only [Computer.step, running, Bool.false_eq_true, if_false]

theorem Computer.step_poll (running : c.stopped = false) : c.step .poll = c.poll := by
  simp only [Computer.step, running, Bool.false_eq_true, if_false]

/-- A computer that has stopped looks at nothing, and neither does the kernel. -/
theorem Computer.Stands.asleep (stands : c.Stands k) (stopped : c.stopped = true) {input : Input} (on : input ≠ .power) :
    c.step input = some c ∧ Kernel.step drive k input = .ok k := by
  have off := stands.stopped.trans stopped
  cases input with
  | power => exact absurd rfl on
  | tick => simp only [Computer.step, Kernel.step, off, if_true, and_self]
  | _ => simp only [Computer.step, Kernel.step, stopped, off, if_true, and_self]

/-- A byte from the keyboard reaches the decoder and the queue. -/
theorem Computer.Stands.scancode (stands : c.Stands k) (running : c.stopped = false) (byte : UInt8) :
    ∃ after, Kernel.step drive k (.scancode byte) = .ok after ∧
      Computer.Stands { c with decoder := (c.decoder.feed byte).1, waiting := Computer.queue c.waiting (c.decoder.feed byte).2 }
        after := by
  obtain ⟨keyboard, fed, waits, decodes⟩ := (stands.waits running).scancode byte
  rw [stands.decodes running] at waits decodes
  have on : ¬ k.stopped = true := by rw [stands.stopped, running]; exact Bool.false_ne_true
  rw [Kernel.step, if_neg on, fed]
  exact ⟨_, rfl, stands.session, stands.stopped, fun _ => waits, fun _ => decodes, stands.typed⟩

/-- The clock of the kernel counts, and nothing else looks at it. -/
theorem Computer.Stands.tick (stands : c.Stands k) : ∃ after, Kernel.step drive k .tick = .ok after ∧ c.Stands after := by
  have session := stands.session
  rw [Kernel.step]
  split
  · exact ⟨k, rfl, stands⟩
  · exact ⟨_, rfl, ⟨session.users, session.accepted, session.tree, session.disk, session.present⟩,
      stands.stopped, stands.waits, stands.decodes, stands.typed⟩

theorem kernel_simulates :
    Simulates (fun k c => Computer.Stands c k) (fun wrong => wrong = .undefined .overflow) (Kernel.step drive) Computer.step where
  goes := by
    intro k c input next stands steps
    by_cases running : c.stopped = false
    · cases input with
      | power =>
        cases steps
        exact kernelMain_stands stands.session.disk
      | tick =>
        cases steps
        exact stands.tick
      | scancode byte =>
        rw [Computer.step_scancode running] at steps
        cases steps
        exact stands.scancode running byte
      | poll =>
        rw [Computer.step_poll running] at steps
        obtain ⟨after, done, stands'⟩ := (stands.poll running).1 next steps
        refine ⟨after, ?_, stands'⟩
        simp only [Kernel.step, stands.stopped.trans running, Bool.false_eq_true, if_false, done]
    · by_cases on : input = .power
      · subst on
        cases steps
        exact kernelMain_stands stands.session.disk
      · obtain ⟨same, done⟩ := stands.asleep (Bool.not_eq_false _ ▸ running) on
        rw [same] at steps
        cases steps
        exact ⟨k, done, stands⟩
  fails := by
    intro k c input stands none
    by_cases running : c.stopped = false
    · cases input with
      | poll =>
        rw [Computer.step_poll running] at none
        refine ⟨_, ?_, rfl⟩
        simp only [Kernel.step, stands.stopped.trans running, Bool.false_eq_true, if_false, (stands.poll running).2 none]
      | scancode byte =>
        rw [Computer.step_scancode running] at none
        cases none
      | _ => cases none
    · by_cases on : input = .power
      · subst on
        cases none
      · obtain ⟨same, _⟩ := stands.asleep (Bool.not_eq_false _ ▸ running) on
        rw [same] at none
        cases none

end Steps

/-- Whatever memory and screen hold before the start, and in whatever order interrupts, turns
of the loop and further starts come, the kernel does what the computer does. Its one fault is
a line `color` with a number that an `int` does not hold. -/
theorem kernel_refines_computer (k : Kernel Drive) (t : ShellState) (disk : k.machine.disk.Carries t.attached t.image)
    (inputs : List Input) :
    (∃ last after, (Computer.start t).run inputs = some last ∧ runKernel drive k (.power :: inputs) = .ok after ∧
      last.Stands after) ∨
    (Computer.start t).run inputs = none ∧ runKernel drive k (.power :: inputs) = .error (.undefined .overflow) := by
  obtain ⟨started, on, stands⟩ := kernelMain_stands disk
  have first : Kernel.step drive k .power = .ok started := on
  rw [runKernel, runSteps_cons first]
  rcases kernel_simulates.run stands inputs with ⟨last, after, ends, ran, stands'⟩ | ⟨none, wrong, ran, rfl⟩
  · exact .inl ⟨last, after, ends, ran, stands'⟩
  · exact .inr ⟨none, ran⟩

/-- A blank drive, an empty screen and memory full of zeros. -/
def Kernel.cold : Kernel Drive where
  machine := ⟨userInit, fishInit, Drive.blank, 0⟩
  keyboard := ⟨fun _ => 0, 0, 0, false, false, false⟩
  input := ⟨fun _ => 0, 0, ⟨fun _ => 0, 0, 0, 0, 0, 0, 0⟩⟩
  stopped := false

theorem Drive.blank_carries : Drive.blank.Carries true .unknown where
  fine := fun _ => rfl
  attached := rfl
  bears := by
    rintro ⟨magic, _⟩
    exact absurd magic (by decide +kernel)

section Lines

theorem Computer.run_append (c : Computer) (first rest : List Input) :
    c.run (first ++ rest) = c.run first >>= fun next => next.run rest := List.foldlM_append ..

theorem Computer.run_cons {input : Input} {inputs : List Input} {next : Computer} (steps : c.step input = some next) :
    c.run (input :: inputs) = next.run inputs := by
  rw [Computer.run, List.foldlM_cons, steps]
  rfl

/-- Bytes that fill no buffer reach the queue as keys. -/
theorem Computer.run_scancodes (running : c.stopped = false) {bytes : List UInt8} (few : c.waiting.length + bytes.length ≤ 127) :
    c.run (bytes.map .scancode) =
      some { c with decoder := (c.decoder.keys bytes).1, waiting := c.waiting ++ (c.decoder.keys bytes).2 } := by
  induction bytes generalizing c with
  | nil =>
    simp only [Decoder.keys, List.append_nil]
    rfl
  | cons byte bytes ih =>
    rw [List.length_cons] at few
    have queued : Computer.queue c.waiting (c.decoder.feed byte).2 = c.waiting ++ (c.decoder.feed byte).2.toList := by
      cases (c.decoder.feed byte).2 with
      | none => exact (List.append_nil _).symm
      | some key => exact if_pos (by omega)
    have short : (c.decoder.feed byte).2.toList.length ≤ 1 := by
      cases (c.decoder.feed byte).2 <;> simp
    have step := Computer.step_scancode running byte
    rw [queued] at step
    rw [List.map_cons, Computer.run_cons step]
    rw [ih (c := { c with decoder := (c.decoder.feed byte).1, waiting := c.waiting ++ (c.decoder.feed byte).2.toList }) running
      (by simp only [List.length_append]; omega), Decoder.keys_cons, List.append_assoc]

/-- The turns take the letters, and the last one gives the line to the shell. -/
theorem Computer.run_polls (running : c.stopped = false) {text : List UInt8} (printable : ∀ letter ∈ text, 32 ≤ letter ∧ letter ≤ 126)
    (short : c.held.length + text.length ≤ 255) (waiting : c.waiting = (text.map fun letter => Int32.ofNat letter.toNat) ++ [10]) :
    c.run (List.replicate (text.length + 1) .poll) = (c.session.line (CString.ofBytes (c.held ++ text))).map fun outcome =>
      { c with session := outcome.1, waiting := [], held := [], stopped := outcome.2 } := by
  induction text generalizing c with
  | nil =>
    rw [List.append_nil, ← Computer.poll_enter waiting, ← Computer.step_poll running]
    exact bind_pure _
  | cons letter text ih =>
    obtain ⟨low, high⟩ := printable letter List.mem_cons_self
    rw [List.length_cons] at short
    rw [List.map_cons, List.cons_append] at waiting
    have step := Computer.step_poll running
    rw [Computer.poll_key waiting (printable_key low high).2.1, editKey_printable low high (by omega)] at step
    rw [List.length_cons, List.replicate_succ, Computer.run_cons step]
    have held : c.held ++ [letter] ++ text = c.held ++ letter :: text := List.append_assoc ..
    rw [ih (c := { c with waiting := _, held := c.held ++ [letter] }) running
      (fun other member => printable other (List.mem_cons_of_mem _ member))
      (by simp only [List.length_append, List.length_singleton]; omega) rfl, held]

/-- A line typed without a pause does what the shell makes of it. -/
theorem Computer.run_typeLine {t : ShellState} {text : String}
    (printable : ∀ letter ∈ (literal text).chars, 32 ≤ letter ∧ letter ≤ 126) (short : (literal text).chars.length ≤ 255)
    (few : ((literal text).chars.flatMap stroke).length ≤ 125) :
    Computer.run ⟨t, .start, [], [], false⟩ (typeLine text) =
      (t.line (literal text)).map fun outcome => ⟨outcome.1, .start, [], [], outcome.2⟩ := by
  have keys : Decoder.start.keys ((literal text).chars.flatMap stroke ++ [0x1C, 0x9C]) =
      (.start, ((literal text).chars.map fun letter => Int32.ofNat letter.toNat) ++ [10]) := by
    rw [Decoder.keys_append, strokes_keys printable]
    rfl
  rw [typeLine, Computer.run_append, Computer.run_scancodes rfl (by simp only [List.length_nil, List.length_append, List.length_cons]; omega)]
  simp only [keys, List.nil_append, Option.bind_eq_bind, Option.bind_some]
  rw [Computer.run_polls rfl printable (by rw [List.length_nil]; omega) rfl, List.nil_append, CString.ofBytes_chars]

/-- A line whose first word is in the table runs that row's function. -/
theorem ShellState.line_word (t : ShellState) {text : CString} {word : String} {fn : CommandFn}
    (listed : ∃ row ∈ commands, row.name = word ∧ row.run = fn) (named : text.firstWord = literal word)
    (other : fn ≠ .color ∧ fn ≠ .reboot ∧ fn ≠ .halt) : t.line text = some (t.run text.afterWord fn, false) := by
  obtain ⟨row, member, rfl, rfl⟩ := listed
  obtain ⟨nonempty, found⟩ := commands_find row member
  have some : ¬ text.firstWord.chars = [] := by
    rw [named]
    exact fun empty => nonempty (CString.ext empty)
  have returns : decide (row.run = .reboot ∨ row.run = .halt) = false := decide_eq_false (not_or.mpr other.2)
  rw [← named] at found
  rw [ShellState.line, if_neg some, found]
  refine (if_neg fun overflows => other.1 overflows.1).trans ?_
  rw [returns]

end Lines

/-- A directory is made and saved on a new disk; the next start finds it, and a file is made beside it. -/
theorem kernel_refines_computer_saved : ∃ (k after : Kernel Drive) (t : ShellState) (tree : FileTree) (last : Computer),
    runKernel drive Kernel.cold (.power :: (typeLine "mkdir a" ++ typeLine "save")) = .ok k ∧
    tree = (FileTree.bare.mkdir (literal "a")).2.keepNames userInit ∧ t.image = .tree tree ∧
    (Computer.start t).run (typeLine "touch b") = some last ∧ runKernel drive k (.power :: typeLine "touch b") = .ok after ∧
    last.Stands after ∧ last.session.tree = (tree.create (literal "b")).2 := by
  obtain ⟨made, first⟩ : ∃ made, made = (FileTree.bare.mkdir (literal "a")).2 := ⟨_, rfl⟩
  obtain ⟨tree, kept⟩ : ∃ tree, tree = made.keepNames userInit := ⟨_, rfl⟩
  obtain ⟨grown, touched⟩ : ∃ grown, grown = (tree.create (literal "b")).2 := ⟨_, rfl⟩
  have saving : (Computer.start ⟨userInit, .bare, true, .unknown⟩).run (typeLine "mkdir a" ++ typeLine "save") =
      some ⟨⟨userInit, tree, true, .tree tree⟩, .start, [], [], false⟩ := by
    have one := @Computer.run_typeLine ⟨userInit, .bare, true, .unknown⟩ "mkdir a" (by decide +kernel) (by decide +kernel) (by decide +kernel)
    have two := @Computer.run_typeLine ⟨userInit, made, true, .unknown⟩ "save" (by decide +kernel) (by decide +kernel) (by decide +kernel)
    have argument : (literal "mkdir a").afterWord = literal "a" := by decide +kernel
    rw [@ShellState.line_word _ _ "mkdir" .mkdir (by decide) (by decide +kernel) (by decide), argument, ShellState.run, ← first] at one
    rw [@ShellState.line_word _ _ "save" .save (by decide) (by decide +kernel) (by decide), ShellState.run, ← kept] at two
    simp only [Option.map_some, ShellState.save, if_true] at one two
    rw [Computer.run_append, Computer.start, ShellState.start, one]
    simp only [Option.bind_eq_bind, Option.bind_some]
    exact two
  have touching : (Computer.start ⟨userInit, tree, true, .tree tree⟩).run (typeLine "touch b") =
      some ⟨⟨tree.names, grown, true, .tree tree⟩, .start, [], [], false⟩ := by
    have typed := @Computer.run_typeLine ⟨tree.names, tree, true, .tree tree⟩ "touch b" (by decide +kernel) (by decide +kernel) (by decide +kernel)
    have argument : (literal "touch b").afterWord = literal "b" := by decide +kernel
    rw [@ShellState.line_word _ _ "touch" .touch (by decide) (by decide +kernel) (by decide), argument, ShellState.run, ← touched] at typed
    simp only [Option.map_some] at typed
    rw [Computer.start, ShellState.start, typed]
  rcases kernel_refines_computer Kernel.cold ⟨userInit, .bare, true, .unknown⟩ Drive.blank_carries (typeLine "mkdir a" ++ typeLine "save")
    with ⟨c, k, ran, ran', stands⟩ | ⟨none, _⟩
  · cases ran.symm.trans saving
    rcases kernel_refines_computer k ⟨userInit, tree, true, .tree tree⟩ stands.session.disk (typeLine "touch b")
      with ⟨last, after, ran, ran'', stands'⟩ | ⟨none, _⟩
    · cases ran.symm.trans touching
      exact ⟨k, after, ⟨userInit, tree, true, .tree tree⟩, tree, _, ran', first ▸ kept, rfl, touching, ran'', stands', touched⟩
    · cases touching.symm.trans none
  · cases saving.symm.trans none

end Seaweed
