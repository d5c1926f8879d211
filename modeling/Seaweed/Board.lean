import Seaweed.Kernel
import Seaweed.PioDrive

/-! The kernel on the ports of a drive: what each step does at the ports is put to the drive,
which loses its cache and its command whenever the power goes. -/

namespace Seaweed
open Library

section Disks

variable {σ τ : Type} (ata : Ata σ)

/-- The disk after a start, whatever becomes of the files. -/
def startDisk (d : σ) : σ :=
  let (found, d) := ata.init d
  if found then (fishLoad ata fishInit d).2.2 else d

theorem startFiles_disk {d after : σ} {said : List Event} {u : Users} {s : Fish}
    (done : startFiles ata d = .ok (said, u, s, after)) : after = startDisk ata d := by
  unfold startFiles at done
  unfold startDisk
  rcases probed : ata.init d with ⟨found, d'⟩
  rw [probed] at done
  cases found with
  | false =>
    cases done
    rfl
  | true =>
    rcases read : fishLoad ata fishInit d' with ⟨result, s', last⟩
    simp only [if_true, read] at done ⊢
    split at done
    · obtain ⟨_, _, named⟩ := bind_inv done
      cases named
      rfl
    · cases done
      rfl

/-- The same kernel with another disk. -/
def Kernel.on (k : Kernel σ) (d : τ) : Kernel τ where
  machine := ⟨k.machine.users, k.machine.fish, d, k.machine.ticks⟩
  keyboard := k.keyboard
  input := k.input
  stopped := k.stopped

/-- A line that goes wrong does so before it asks for the disk. -/
def Went.disk (before : σ) : Went (Kernel σ) → σ
  | .error _ => before
  | .ok after => after.machine.disk

/-- The disk after a step. -/
def Kernel.diskAfter (k : Kernel σ) : Input → σ
  | .power => startDisk ata k.machine.disk
  | input => Went.disk k.machine.disk (k.step ata input)

end Disks

/-- The power has gone and come back. -/
def PioDrive.restarted (d : PioDrive) : PioDrive :=
  { d with cache := d.stored, head := 0, count := 1, low := 1, mid := 0, high := 0, task := .idle }

/-- What a driver that has looked for the drive makes of it. -/
def PioDrive.disk (d : PioDrive) : Drive := ⟨d.attached, d.attached, d.stored, fun _ => false, 0⟩

structure Board where
  kernel : Kernel AtaLog
  device : PioDrive

/-- How a run can end early: the kernel goes wrong, the driver breaks the protocol, or the
drive shows or answers what it must not. -/
inductive Broken where
  | wrong (wrong : Wrong)
  | protocol
  | answer

namespace Board

/-- The drive as the step finds it. -/
def meets (b : Board) (input : Input) : PioDrive := if input = .power then b.device.restarted else b.device

/-- What the step does at the ports. -/
def accesses (b : Board) (input : Input) : List PortEvent :=
  (b.kernel.diskAfter ataDriver input).driver.ports.trace.drop b.kernel.machine.disk.driver.ports.trace.length

def step (b : Board) (input : Input) : Except Broken Board :=
  if pio.Honest (b.meets input) (b.accesses input) then
    match pio.run (b.meets input) (b.accesses input) with
    | none => .error .protocol
    | some device =>
      match b.kernel.step ataDriver input with
      | .error wrong => .error (.wrong wrong)
      | .ok kernel => .ok ⟨kernel, device⟩
  else .error .answer

def run (b : Board) (inputs : List Input) : Except Broken Board := runSteps step b inputs

end Board

end Seaweed
