import Seaweed.Library.Device
import Seaweed.Proofs.AtaTransfer

/-! What `ata.c` drives: a disk on the primary channel, seen from its registers. Its status
tells how far a command has come; blocks are moved one word at a time, and what has been
written is safe once the cache has been flushed. -/

namespace Seaweed
open Library

instance : DecidablePred Busy := fun status => inferInstanceAs (Decidable (status &&& statusBsy ≠ 0))
instance : DecidablePred Requests := fun status => inferInstanceAs (Decidable (status &&& statusDrq ≠ 0))
instance : DecidablePred Faulted := fun status => inferInstanceAs (Decidable (status &&& (statusErr ||| statusDf) ≠ 0))
instance : DecidablePred Ready := fun status => inferInstanceAs (Decidable (¬ Busy status ∧ ¬ Faulted status ∧ Requests status))

abbrev statusRdy : UInt8 := 0x40

/-- Neither busy nor asking for a word. -/
def Resting (status : UInt8) : Prop := ¬ Busy status ∧ ¬ Requests status ∧ status &&& statusRdy ≠ 0

instance : DecidablePred Resting := fun status =>
  inferInstanceAs (Decidable (¬ Busy status ∧ ¬ Requests status ∧ status &&& statusRdy ≠ 0))

/-- A block is not there yet, or there is no room for one. -/
def Pending (status : UInt8) : Prop := Busy status ∨ Resting status ∧ ¬ Faulted status

instance : DecidablePred Pending := fun status => inferInstanceAs (Decidable (Busy status ∨ Resting status ∧ ¬ Faulted status))

/-- How far a command has come. `polls` counts the readings of a status since the drive
began to work; `more` the blocks behind the one that is written. -/
inductive Task where
  | idle
  | preparing (polls : ℕ) (block : List UInt16) (blocks : List (List UInt16))
  | sending (words : List UInt16) (blocks : List (List UInt16))
  | asking (polls lba more : ℕ)
  | taking (lba more : ℕ) (words : List UInt16)
  | settling (polls : ℕ)
  | flushing (polls : ℕ)

def Sector.words (s : Sector) : List UInt16 := List.ofFn fun i : Fin sectorWords => halfAt s.at (2 * i)

/-- Low byte first. -/
def sectorOf (words : List UInt16) : Sector := fun i =>
  if i.val % 2 = 0 then (words.getD (i / 2) 0).toUInt8 else (words.getD (i / 2) 0 >>> 8).toUInt8

/-- `cache` is what a command reads and writes; `stored` is what stays without power. -/
structure PioDrive where
  attached : Bool
  identity : Fin sectorWords → UInt16
  cache : ℕ → Sector
  stored : ℕ → Sector
  head : UInt8
  count : UInt8
  low : UInt8
  mid : UInt8
  high : UInt8
  task : Task

namespace PioDrive

/-- The 28 bits of the address registers. -/
def lba (d : PioDrive) : ℕ := (d.head &&& 0x0F).toNat * 2 ^ 24 + d.high.toNat * 2 ^ 16 + d.mid.toNat * 2 ^ 8 + d.low.toNat

/-- A count of 0 stands for 256. -/
def blocks (d : PioDrive) : ℕ := if d.count = 0 then 256 else d.count.toNat

/-- A status that the drive may show. It gets on with its work within the readings that the
driver allows for, and takes the last block of a WRITE within the 400 ns of `delay_400ns`. -/
def shows (d : PioDrive) (status : UInt8) : Prop :=
  match d.task with
  | .idle => Resting status
  | .preparing polls _ _ | .asking polls _ _ => Ready status ∨ Pending status ∧ polls + 1 < waitLimit
  | .sending _ _ | .taking _ _ _ => Ready status
  | .settling polls => Resting status ∨ Busy status ∧ polls < 3
  | .flushing polls => Resting status ∨ Busy status ∧ polls + 1 < waitLimit

instance (d : PioDrive) : DecidablePred d.shows := fun status => by
  unfold shows
  split <;> infer_instance

/-- Where no drive is attached the bus floats. -/
def answers (d : PioDrive) : PortEvent → Prop
  | .inb _ status => if d.attached then d.shows status else status = 0xFF ∨ status = 0
  | .inw _ word =>
    match d.task with
    | .sending (next :: _) _ => d.attached = true → word = next
    | _ => True
  | _ => True

instance (d : PioDrive) : DecidablePred d.answers := fun event => by
  unfold answers
  split
  · infer_instance
  · split <;> infer_instance
  · infer_instance

/-- What a status that has been shown tells about the task. -/
def shown (d : PioDrive) (status : UInt8) : PioDrive :=
  match d.task with
  | .preparing polls block blocks =>
    { d with task := if Busy status ∨ ¬ Requests status then .preparing (polls + 1) block blocks else .sending block blocks }
  | .asking polls lba more =>
    { d with task := if Busy status ∨ ¬ Requests status then .asking (polls + 1) lba more else .taking lba more [] }
  | .settling polls => { d with task := if Busy status then .settling (polls + 1) else .idle }
  | .flushing polls =>
    if Busy status then { d with task := .flushing (polls + 1) } else { d with task := .idle, stored := d.cache }
  | _ => d

/-- A command, for the master drive and with 28 bits of address. -/
def command (d : PioDrive) (code : UInt8) : Option PioDrive :=
  if code = cmdIdentify then some { d with task := .preparing 0 (List.ofFn d.identity) [] }
  else if code = cmdFlush then some { d with task := .flushing 0 }
  else if d.head &&& 0xF0 ≠ 0xE0 then none
  else if code = cmdRead then
    match (List.range d.blocks).map fun i => (d.cache (d.lba + i)).words with
    | [] => none
    | block :: blocks => some { d with task := .preparing 0 block blocks }
  else if code = cmdWrite then some { d with task := .asking 0 d.lba (d.blocks - 1) }
  else none

/-- A register. All of them belong to the drive while it works. -/
def write (d : PioDrive) (port : UInt16) (value : UInt8) : Option PioDrive :=
  match d.task with
  | .idle =>
    if port = ataDrive then some { d with head := value }
    else if port = ataSeccount then some { d with count := value }
    else if port = ataLbaLow then some { d with low := value }
    else if port = ataLbaMid then some { d with mid := value }
    else if port = ataLbaHigh then some { d with high := value }
    else if port = ataCommand then d.command value
    else none
  | _ => none

/-- A word goes to the host. -/
def give (d : PioDrive) : Option PioDrive :=
  match d.task with
  | .sending (_ :: next :: words) blocks => some { d with task := .sending (next :: words) blocks }
  | .sending [_] (block :: blocks) => some { d with task := .preparing 0 block blocks }
  | .sending [_] [] => some { d with task := .idle }
  | _ => none

/-- A word comes from the host. -/
def take (d : PioDrive) (word : UInt16) : Option PioDrive :=
  match d.task with
  | .taking lba more words =>
    if words.length + 1 < sectorWords then some { d with task := .taking lba more (words ++ [word]) }
    else some { d with
      cache := Function.update d.cache lba (sectorOf (words ++ [word]))
      task := if more = 0 then .settling 0 else .asking 0 (lba + 1) (more - 1) }
  | _ => none

def next (d : PioDrive) : PortEvent → Option PioDrive
  | .inb port status =>
    if !d.attached then some d
    else if port = ataStatus ∨ port = ataControl then some (d.shown status)
    else none
  | .outb port value => if !d.attached then some d else d.write port value
  | .inw port _ => if !d.attached then some d else if port = ataData then d.give else none
  | .outw port word => if !d.attached then some d else if port = ataData then d.take word else none

end PioDrive

def pio : Device PioDrive PortEvent := ⟨PioDrive.answers, PioDrive.next⟩

instance (d : PioDrive) (event : PortEvent) : Decidable (pio.answers d event) := inferInstanceAs (Decidable (d.answers event))

end Seaweed
