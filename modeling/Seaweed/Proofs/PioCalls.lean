import Seaweed.Library.Dialogue
import Seaweed.Proofs.PioCommands

/-! The driver as its callers see it: an array of sectors, in every order of calls and with
whatever the caller makes of their results. -/

namespace Seaweed
open Library

variable {d : PioDrive} {driver : AtaDriver} {lba : UInt32} {count : UInt8}

/-- The addresses that the registers hold. -/
abbrev Lba : Type := Fin (2 ^ 28)

def Lba.word (lba : Lba) : UInt32 := UInt32.ofNat lba

theorem Lba.word_toNat (lba : Lba) : lba.word.toNat = lba := by
  have bound := lba.isLt
  rw [Lba.word, UInt32.toNat_ofNat']
  exact Nat.mod_eq_of_lt (by omega)

/-- A call, with the memory that it is given. -/
inductive AtaCall where
  | read (lba : Lba) (count : UInt8) (buffer : Bytes)
  | write (lba : Lba) (count : UInt8) (buffer : Bytes)

/-- The memory with sectors of an array in front. -/
def fetched (sectors : ℕ → Sector) (start n : ℕ) (m : Bytes) : Bytes :=
  fun x => if x < 512 * n then (sectors (start + x / 512)).at (x % 512) else m x

namespace AtaCall

/-- The result and the memory after the call. -/
abbrev Reply (_ : AtaCall) : Type := Int × Bytes

def run : (call : AtaCall) → AtaDriver → call.Reply × AtaDriver
  | read lba count buffer, driver =>
    let (result, m, driver) := ataRead driver lba.word count buffer
    ((result, m), driver)
  | write lba count buffer, driver =>
    let (result, driver) := ataWrite driver lba.word count buffer
    ((result, buffer), driver)

/-- What the call is for. -/
def meant : (call : AtaCall) → (ℕ → Sector) → call.Reply × (ℕ → Sector)
  | read lba count buffer, sectors => ((0, fetched sectors lba count.toNat buffer), sectors)
  | write lba count buffer, sectors => ((0, buffer), written sectors lba count.toNat buffer 0)

end AtaCall

/-- Nothing is under way, and nothing waits in the cache. -/
structure PioDrive.Rests (d : PioDrive) : Prop where
  attached : d.attached = true
  idle : d.task = .idle
  flushed : d.cache = d.stored

section Calls

theorem Poured.fetched {sectors : ℕ → Sector} {start n : ℕ} {m m' : Bytes}
    (poured : Poured 0 ((List.range n).map fun i => sectors (start + i)) m m') : m' = Seaweed.fetched sectors start n m := by
  obtain ⟨bytes, kept⟩ := poured
  rw [List.length_map, List.length_range] at kept
  funext x
  unfold Seaweed.fetched
  split
  next inside =>
    have here : x / 512 < n := by omega
    have low : x % 512 < 512 := Nat.mod_lt _ (by decide)
    have byte := bytes (x / 512) (sectors (start + x / 512))
      (by rw [List.getElem?_map, List.getElem?_range here, Option.map_some]) ⟨x % 512, low⟩
    rw [Buffer.at, dif_pos low, ← byte]
    congr 1
    simp only
    omega
  next outside => exact kept x (.inr (by omega))

theorem opening_grows (p : Ports) (lba : UInt32) (count code : UInt8) :
    p.trace <+: (outb (selectSector p lba count) ataCommand code).trace :=
  (outbs_grows p (selection lba count)).trans (outb_grows _ _ _)

theorem ataRead_grows (driver : AtaDriver) (lba : UInt32) (count : UInt8) (buffer : Bytes) :
    driver.ports.trace <+: (ataRead driver lba count buffer).2.2.ports.trace := by
  have waits := waitNotBusy_polls.grows waitLimit driver.ports
  have whole : (0 : UInt8).toNat + count.toNat = count.toNat := Nat.zero_add _
  obtain ⟨_, _, did, _⟩ := readSectors_transfer whole 0 buffer
    (outb (selectSector (waitNotBusy driver.ports).2 lba count) ataCommand cmdRead)
  have moves := (opening_grows (waitNotBusy driver.ports).2 lba count cmdRead).trans ⟨_, did.trace.symm⟩
  unfold ataRead
  split_ifs
  · exact List.prefix_refl _
  · exact List.prefix_refl _
  · simp only
    split_ifs
    · exact waits
    · exact waits.trans moves

theorem ataWrite_grows (driver : AtaDriver) (lba : UInt32) (count : UInt8) (buffer : Bytes) :
    driver.ports.trace <+: (ataWrite driver lba count buffer).2.ports.trace := by
  by_cases absent : (!driver.present) = true
  · rw [ataWrite, if_pos absent]
  by_cases none : count = 0
  · rw [ataWrite, if_neg absent, if_pos none]
  have waits := waitNotBusy_polls.grows waitLimit driver.ports
  rcases wait : waitNotBusy driver.ports with ⟨result, p⟩
  rw [waitNotBusy] at wait
  rw [wait] at waits
  by_cases good : result = 0
  · subst good
    have whole : (0 : UInt8).toNat + count.toNat = count.toNat := Nat.zero_add _
    obtain ⟨_, _, did, _⟩ := writeSectors_transfer whole buffer 0 (outb (selectSector p lba count) ataCommand cmdWrite)
    have moves := (opening_grows p lba count cmdWrite).trans ⟨_, did.trace.symm⟩
    rcases moved : writeSectors count 0 buffer 0 (outb (selectSector p lba count) ataCommand cmdWrite) with ⟨result', p'⟩
    rw [moved] at moves
    by_cases good' : result' = 0
    · subst good'
      rw [ataWrite_done absent none wait moved]
      refine waits.trans (moves.trans ((outb_grows p' ataCommand cmdFlush).trans ?_))
      exact waitNotBusy_polls.grows waitLimit (outb p' ataCommand cmdFlush)
    · rw [ataWrite_stopped absent none wait moved good']
      exact waits.trans moves
  · rw [ataWrite_busy absent none wait good]
    exact waits

theorem AtaCall.run_grows (call : AtaCall) (driver : AtaDriver) : driver.ports.trace <+: (call.run driver).2.ports.trace := by
  cases call with
  | read lba count buffer => exact ataRead_grows driver lba.word count buffer
  | write lba count buffer => exact ataWrite_grows driver lba.word count buffer

theorem ataRead_present (driver : AtaDriver) (lba : UInt32) (count : UInt8) (buffer : Bytes) :
    (ataRead driver lba count buffer).2.2.present = driver.present := by
  unfold ataRead
  split
  · rfl
  · split
    · rfl
    · generalize waitNotBusy driver.ports = waited
      simp only
      split <;> rfl

theorem ataWrite_present (driver : AtaDriver) (lba : UInt32) (count : UInt8) (buffer : Bytes) :
    (ataWrite driver lba count buffer).2.present = driver.present := by
  by_cases absent : (!driver.present) = true
  · rw [ataWrite, if_pos absent]
  by_cases none : count = 0
  · rw [ataWrite, if_neg absent, if_pos none]
  rcases wait : waitNotBusy driver.ports with ⟨result, p⟩
  by_cases good : result = 0
  · subst good
    rcases moved : writeSectors count 0 buffer 0 (outb (selectSector p lba count) ataCommand cmdWrite) with ⟨result', p'⟩
    by_cases good' : result' = 0
    · subst good'
      rw [ataWrite_done absent none wait moved]
    · rw [ataWrite_stopped absent none wait moved good']
  · rw [ataWrite_busy absent none wait good]

/-- The driver has found the drive, which holds the sectors. -/
structure PioDrive.Found (d : PioDrive) (driver : AtaDriver) (sectors : ℕ → Sector) : Prop where
  present : driver.present = true
  rests : d.Rests
  stored : d.stored = sectors

theorem AtaCall.run_serves {sectors : ℕ → Sector} (holds : d.Found driver sectors) (call : AtaCall) :
    pio.Serves d driver.ports.trace (call.run driver).2.ports.trace fun after =>
      (call.run driver).1 = (call.meant sectors).1 ∧ after.Found (call.run driver).2 (call.meant sectors).2 := by
  obtain ⟨present, ⟨attached, idle, flushed⟩, rfl⟩ := holds
  have found : ¬ (!driver.present) = true := by
    rw [present]
    exact Bool.false_ne_true
  cases call with
  | read lba count buffer =>
    by_cases none : count = 0
    · have run : ataRead driver lba.word count buffer = (0, buffer, driver) := by
        rw [ataRead, if_neg found, if_pos none]
      subst none
      rw [AtaCall.run, run]
      exact .refl ⟨rfl, present, ⟨attached, idle, flushed⟩, rfl⟩
    · have serves := ataRead_serves present attached idle (lba.word_toNat.symm ▸ lba.isLt) none buffer
      rw [lba.word_toNat] at serves
      refine serves.mono ?_
      rintro after ⟨good, poured, rfl⟩
      rw [PioDrive.sectors, flushed] at poured
      refine ⟨?_, (ataRead_present ..).trans present, ⟨attached, idle, flushed⟩, rfl⟩
      exact Prod.ext good poured.fetched
  | write lba count buffer =>
    by_cases none : count = 0
    · have run : ataWrite driver lba.word count buffer = (0, driver) := by
        rw [ataWrite, if_neg found, if_pos none]
      subst none
      rw [AtaCall.run, run, AtaCall.meant]
      exact .refl ⟨rfl, present, ⟨attached, idle, flushed⟩, (written_zero ..).symm⟩
    · have serves := ataWrite_serves present attached idle (lba.word_toNat.symm ▸ lba.isLt) none buffer
      rw [lba.word_toNat, flushed] at serves
      refine serves.mono ?_
      rintro after ⟨good, rfl⟩
      exact ⟨Prod.ext good rfl, (ataWrite_present ..).trans present, ⟨attached, idle, rfl⟩, rfl⟩

end Calls

/-- A sector that is not of Fish. -/
def letters : Sector := fun i => UInt8.ofNat (i / 3)

/-- A drive with that sector everywhere. -/
def PioDrive.lettered : PioDrive := ⟨true, fun _ => 0, fun _ => letters, fun _ => letters, 0, 0, 0, 0, 0, .idle⟩

/-- The ports of that drive, ready at the first reading, for a start and a sector. -/
def answering : Ports where
  bytes port :=
    if port = ataStatus then Stream'.appendStream' [0x50, 0x58, 0x58, 0x50, 0x58] (Stream'.const 0x50) else Stream'.const 0x50
  words _ := Stream'.appendStream' (List.replicate sectorWords 0 ++ letters.words) (Stream'.const 0)
  trace := []

end Seaweed
