import Seaweed.Commands
import Seaweed.Keyboard
import Seaweed.Library.Runs

/-! `kernel_main` and the loop of `shell_run`: the whole kernel as a machine that takes the
interrupts of the keyboard and of the timer, the turns of the loop in `read_line`, and the
power going off and on, in any order. -/

namespace Seaweed
open Library

/-- What a run of the kernel must not do: what a command must not, or leave the screen, the
array `line` or the buffer of keys. -/
inductive Wrong where
  | undefined (wrong : Undefined)
  | outside
deriving DecidableEq

abbrev Went (α : Type) := Except Wrong α

def Went.ofRan {α : Type} : Ran α → Went α
  | .error wrong => .error (.undefined wrong)
  | .ok value => .ok value

@[simp] theorem Went.ofRan_ok {α : Type} (value : α) : Went.ofRan (.ok value : Ran α) = .ok value := rfl

@[simp] theorem Went.ofRan_error {α : Type} (wrong : Undefined) :
    Went.ofRan (.error wrong : Ran α) = .error (.undefined wrong) := rfl

theorem Went.ofRan_inv {α : Type} {ran : Ran α} {value : α} (done : Went.ofRan ran = .ok value) : ran = .ok value := by
  cases ran with
  | error wrong => cases done
  | ok same =>
    cases done
    rfl

def Went.inside {α : Type} : Option α → Went α
  | none => .error .outside
  | some value => .ok value

@[simp] theorem Went.inside_some {α : Type} (value : α) : Went.inside (some value) = .ok value := rfl

theorem Went.inside_inv {α : Type} {value : α} {found : Option α} (done : Went.inside found = .ok value) : found = some value := by
  cases found with
  | none => cases done
  | some same =>
    cases done
    rfl

/-- What a call does to the screen. -/
def Event.draw (v : Vga) : Event → Option Vga
  | .write text => vgaWrite v (literal text).chars
  | .chars text => vgaWrite v text
  | .color foreground background => some (vgaSetColor v foreground background)
  | .clear => vgaClear v
  | .sleep _ | .reboot | .halt => some v

def drawAll (v : Vga) (events : List Event) : Option Vga := events.foldlM Event.draw v

/-- `reboot` and `halt` end in a loop that nothing but a reset leaves. -/
def Event.ends : Event → Bool
  | .reboot | .halt => true
  | _ => false

/-- The memory of the kernel, the screen in `input`, and the disk in `machine`. -/
structure Kernel (σ : Type) where
  machine : Machine σ
  keyboard : Keyboard
  input : LineInput
  stopped : Bool

section Starting

variable {σ : Type} (ata : Ata σ)

/-- What `kernel_main` writes before it looks for files. -/
def openingText : List Event :=
  [.color 11 0, .write "Yunix v0.1.2\n", .write "Kernel: Seaweed v0.1\n",
    .color 7 0, .write "A hobby operating system by Yavuz Selim\n\n",
    .color 10 0, .write "[ ok ] GDT loaded\n",
    .write "[ ok ] IDT loaded, PIC remapped to 32-47\n",
    .write "[ ok ] PIT running at 100 Hz on IRQ 0\n",
    .write "[ ok ] Keyboard driver installed on IRQ 1\n",
    .write "[ ok ] Interrupts enabled\n",
    .color 7 0, .write "\nType help for a list of commands.\n\n"]

/-- `kernel_main` from `user_init` to the shell, with what it writes. -/
def startFiles (d : σ) : Checked (List Event × Users × Fish × σ) := do
  let u := userInit
  let s := fishInit
  let (found, d) := ata.init d
  if found then
    let said : List Event := [.color 10 0, .write "[ ok ] ATA disk found on the primary channel\n"]
    let (result, s, d) := fishLoad ata s d
    if result = .ok then
      let (_, u, s) ← userLoad u s
      .ok (said ++ [.write "[ ok ] Fish filesystem restored from disk\n", .color 7 0], u, s, d)
    else
      .ok (said ++ [.color 14 0, .write "[ .. ] No saved filesystem. Type format to make one.\n", .color 7 0], u, s, d)
  else .ok ([.color 14 0, .write "[ .. ] No disk found. Files will vanish on reboot.\n", .color 7 0], u, s, d)

/-- What `shell_run` writes in front of a line. -/
def promptText (u : Users) : List Event :=
  [.color 10 0, .chars u.name.chars, .chars [64], .chars u.host.chars, .write " >> ", .color 7 0]

/-- The top of the loop of `shell_run`, up to the first turn of `read_line`. -/
def Kernel.ask (k : Kernel σ) : Went (Kernel σ) := do
  let screen ← Went.inside (drawAll k.input.screen (promptText k.machine.users))
  .ok { k with input := ⟨k.input.line, 0, screen⟩ }

/-- A start with whatever the screen and the memory hold. The interrupts that come before the
shell only fill the buffer and count, so they can be taken to come after. -/
def kernelMain (k : Kernel σ) : Went (Kernel σ) := do
  let screen ← Went.inside (vgaInit k.input.screen)
  let screen ← Went.inside (drawAll screen openingText)
  let (said, u, s, d) ← Went.ofRan (Ran.ofChecked (startFiles ata k.machine.disk))
  let screen ← Went.inside (drawAll screen said)
  Kernel.ask ⟨⟨u, s, d, 0⟩, keyboardInit k.keyboard, ⟨k.input.line, 0, screen⟩, false⟩

end Starting

/-- What can happen to the kernel. -/
inductive Input where
  | scancode (byte : UInt8)
  | tick
  | poll
  | power
deriving DecidableEq

section Steps

variable {σ : Type} (ata : Ata σ)

/-- `execute(line)`, and the prompt for the next line when it returns. The terminator that
`split` puts into `line` is overwritten before anything reads it. -/
def Kernel.runLine (k : Kernel σ) : Went (Kernel σ) := do
  let (out, machine) ← Went.ofRan (execute ata k.input.line.bytes k.machine)
  let screen ← Went.inside (drawAll k.input.screen out)
  let k := { k with machine := machine, input := { k.input with screen := screen } }
  if out.any Event.ends then .ok { k with stopped := true } else k.ask

/-- A turn of the loop of `read_line`. -/
def Kernel.poll (k : Kernel σ) : Went (Kernel σ) := do
  let (key, keyboard) ← Went.inside (keyboardGetchar k.keyboard)
  let (ended, input) ← Went.inside (readKey k.input key)
  let k := { k with keyboard := keyboard, input := input }
  if ended then k.runLine ata else .ok k

/-- Once stopped, nothing is looked at before the next start. -/
def Kernel.step (k : Kernel σ) : Input → Went (Kernel σ)
  | .power => kernelMain ata k
  | .scancode byte =>
    if k.stopped then .ok k
    else do
      let keyboard ← Went.inside (keyboardCallback k.keyboard byte)
      .ok { k with keyboard := keyboard }
  | .tick => if k.stopped then .ok k else .ok { k with machine := { k.machine with ticks := timerCallback k.machine.ticks } }
  | .poll => if k.stopped then .ok k else k.poll ata

def runKernel (k : Kernel σ) (inputs : List Input) : Went (Kernel σ) := runSteps (Kernel.step ata) k inputs

end Steps

/-- `boot` is what the start does to the files and the disk. -/
theorem startFiles_boot {σ : Type} (ata : Ata σ) (d : σ) :
    boot ata d = startFiles ata d >>= fun started => .ok started.2 := by
  unfold boot startFiles
  cases ata.init d with
  | mk found d =>
    cases found with
    | false => rfl
    | true =>
      simp only [if_true]
      obtain ⟨result, s, d⟩ := fishLoad ata fishInit d
      by_cases loaded : result = .ok
      · simp only [if_pos loaded]
        cases userLoad userInit s <;> rfl
      · simp only [if_neg loaded]
        rfl

end Seaweed
