import Seaweed.Proofs.AtaTransfer

/-! The runs of `ata_read` and `ata_write` with a drive present, by what the drive
answers: the accesses they make, in order, and the status values they leave. -/

namespace Seaweed
open Library

variable {d : AtaDriver} {lba : UInt32} {count : UInt8} {buffer : Bytes} {s : Stream' UInt8}

section Opening

/-- What `select_sector` writes. -/
def selected (lba : UInt32) (count : UInt8) : List PortEvent :=
  [.outb ataDrive ((0xE0 : UInt32) ||| ((lba >>> 24) &&& 0x0F)).toUInt8, .outb ataSeccount count,
    .outb ataLbaLow (lba &&& 0xFF).toUInt8, .outb ataLbaMid ((lba >>> 8) &&& 0xFF).toUInt8,
    .outb ataLbaHigh ((lba >>> 16) &&& 0xFF).toUInt8]

/-- The accesses of a command up to its block transfer. -/
def opening (s : Stream' UInt8) (k : ℕ) (lba : UInt32) (count command : UInt8) : List PortEvent :=
  readings s (k + 1) ++ (selected lba count ++ [.outb ataCommand command])

def Ports.opened (p : Ports) (k : ℕ) (lba : UInt32) (count command : UInt8) : Ports :=
  outb (selectSector (p.polled (k + 1)) lba count) ataCommand command

theorem opened_did (p : Ports) (k : ℕ) (lba : UInt32) (count command : UInt8) :
    Did p (opening p.status k lba count command) (p.status.drop (k + 1)) (p.opened k lba count command) := by
  have did := polled_did p (k + 1)
  have chosen : Did (p.polled (k + 1)) (selected lba count) (p.polled (k + 1)).status (selectSector (p.polled (k + 1)) lba count) := by
    refine ⟨?_, rfl⟩
    simp only [selectSector, outb, Ports.note, selected, List.append_assoc, List.cons_append, List.nil_append]
  have sent : Did (selectSector (p.polled (k + 1)) lba count) [.outb ataCommand command] (p.polled (k + 1)).status
      (p.opened k lba count command) := outb_did ataCommand command
  rw [did.status] at chosen sent
  exact did.next (chosen.next sent)

end Opening

section Runs

private theorem here (found : d.present = true) : ¬ (!d.present) = true := by
  rw [found]
  exact Bool.false_ne_true

/-- The runs of `ata_read`: its result, the buffer afterwards and its accesses. -/
inductive ReadRun (lba : UInt32) (count : UInt8) (buffer : Bytes) (s : Stream' UInt8) : Int → Bytes → List PortEvent → Prop where
  | busy {n : ℕ} : ReadRun lba count buffer s (-2) buffer (readings s n)
  | moved {k : ℕ} {events : List PortEvent} {words : List UInt16} {result : Int} {u : Stream' UInt8} {m : Bytes}
      (idle : TurnsIdle s k)
      (transfer : Transfer (PortEvent.inw ataData) count.toNat (s.drop (k + 1)) events words result u)
      (filled : Filled 0 words buffer m) :
      ReadRun lba count buffer s result m (opening s k lba count cmdRead ++ events)

theorem ataRead_run (found : d.present = true) (some : count ≠ 0) (lba : UInt32) (buffer : Bytes) :
    ∃ events, (ataRead d lba count buffer).2.2.ports.trace = d.ports.trace ++ events ∧
      ReadRun lba count buffer d.ports.status (ataRead d lba count buffer).1 (ataRead d lba count buffer).2.1 events := by
  rcases waitNotBusy_cases d.ports with ⟨k, idle, wait⟩ | ⟨busy, n, limit, wait⟩
  · have run : ataRead d lba count buffer =
        ((readSectors count 0 0 buffer (d.ports.opened k lba count cmdRead)).1,
          (readSectors count 0 0 buffer (d.ports.opened k lba count cmdRead)).2.1,
          { d with ports := (readSectors count 0 0 buffer (d.ports.opened k lba count cmdRead)).2.2 }) := by
      rw [ataRead, if_neg (here found), if_neg some, wait]
      exact if_neg (not_not_intro rfl)
    have whole : (0 : UInt8).toNat + count.toNat = count.toNat := Nat.zero_add _
    have opened := opened_did d.ports k lba count cmdRead
    obtain ⟨events, words, did, transfer, filled⟩ := readSectors_transfer whole 0 buffer (d.ports.opened k lba count cmdRead)
    rw [opened.status] at transfer
    rw [run]
    exact ⟨_, (opened.next did).trace, .moved idle transfer filled⟩
  · have run : ataRead d lba count buffer = (-2, buffer, { d with ports := d.ports.polled n }) := by
      rw [ataRead, if_neg (here found), if_neg some, wait]
      exact if_pos (by decide)
    rw [run]
    exact ⟨_, (polled_did d.ports n).trace, .busy⟩

/-- How many values `wait_not_busy` reads: up to the first without BSY, or all it may. -/
def Waited (u : Stream' UInt8) (j : ℕ) : Prop :=
  (∃ k, TurnsIdle u k ∧ j = k + 1) ∨ (∀ i, i < waitLimit → Busy (u.get i)) ∧ j = waitLimit

/-- The runs of `ata_write`: its result, its accesses and the status values that are left. -/
inductive WriteRun (lba : UInt32) (count : UInt8) (buffer : Bytes) (s : Stream' UInt8) :
    Int → List PortEvent → Stream' UInt8 → Prop where
  | busy {n : ℕ} (never : ∀ k, ¬ TurnsIdle s k) : WriteRun lba count buffer s (-2) (readings s n) (s.drop n)
  | failed {k : ℕ} {events : List PortEvent} {words : List UInt16} {result : Int} {u : Stream' UInt8}
      (idle : TurnsIdle s k)
      (transfer : Transfer (PortEvent.outw ataData) count.toNat (s.drop (k + 1)) events words result u)
      (sent : Sent buffer 0 words) (bad : result ≠ 0) :
      WriteRun lba count buffer s result (opening s k lba count cmdWrite ++ events) u
  | done {k j : ℕ} {events : List PortEvent} {words : List UInt16} {u : Stream' UInt8}
      (idle : TurnsIdle s k)
      (transfer : Transfer (PortEvent.outw ataData) count.toNat (s.drop (k + 1)) events words 0 u)
      (sent : Sent buffer 0 words) (waited : Waited u j) :
      WriteRun lba count buffer s 0
        (opening s k lba count cmdWrite ++ (events ++ .outb ataCommand cmdFlush :: readings u j)) (u.drop j)

theorem flush_waited (p : Ports) : ∃ j result, Waited p.status j ∧ waitNotBusy p = (result, p.polled j) := by
  rcases waitNotBusy_cases p with ⟨k, idle, wait⟩ | ⟨busy, n, limit, wait⟩
  · exact ⟨k + 1, 0, .inl ⟨k, idle, rfl⟩, wait⟩
  · exact ⟨n, -2, .inr ⟨busy, limit⟩, wait⟩

theorem ataWrite_run (found : d.present = true) (some : count ≠ 0) (lba : UInt32) (buffer : Bytes) :
    (ataWrite d lba count buffer).2.present = true ∧
    ∃ events, Did d.ports events (ataWrite d lba count buffer).2.ports.status (ataWrite d lba count buffer).2.ports ∧
      WriteRun lba count buffer d.ports.status (ataWrite d lba count buffer).1 events
        (ataWrite d lba count buffer).2.ports.status := by
  rcases waitNotBusy_cases d.ports with ⟨k, idle, wait⟩ | ⟨busy, n, limit, wait⟩
  · have whole : (0 : UInt8).toNat + count.toNat = count.toNat := Nat.zero_add _
    have opened := opened_did d.ports k lba count cmdWrite
    obtain ⟨events, words, did, transfer, sent⟩ := writeSectors_transfer whole buffer 0 (d.ports.opened k lba count cmdWrite)
    rw [opened.status] at transfer
    rcases moved : writeSectors count 0 buffer 0 (d.ports.opened k lba count cmdWrite) with ⟨result, p⟩
    rw [moved] at did transfer
    unfold Ports.opened at moved
    by_cases good : result = 0
    · have flushed : Did p [.outb ataCommand cmdFlush] p.status (outb p ataCommand cmdFlush) := outb_did ataCommand cmdFlush
      obtain ⟨j, late, waited, last⟩ := flush_waited (outb p ataCommand cmdFlush)
      have run : ataWrite d lba count buffer = (0, { d with ports := (outb p ataCommand cmdFlush).polled j }) := by
        rw [ataWrite, if_neg (here found), if_neg some, wait]
        refine (if_neg (not_not_intro rfl)).trans ?_
        rw [moved]
        refine (if_neg (not_not_intro good)).trans ?_
        rw [last]
      have ended := polled_did (outb p ataCommand cmdFlush) j
      rw [flushed.status] at waited ended
      rw [good] at transfer
      rw [run, ended.status]
      exact ⟨found, _, opened.next (did.next (flushed.next ended)), .done idle transfer sent waited⟩
    · have run : ataWrite d lba count buffer = (result, { d with ports := p }) := by
        rw [ataWrite, if_neg (here found), if_neg some, wait]
        refine (if_neg (not_not_intro rfl)).trans ?_
        rw [moved]
        exact if_pos good
      rw [run]
      exact ⟨found, _, opened.next did, .failed idle transfer sent good⟩
  · have run : ataWrite d lba count buffer = (-2, { d with ports := d.ports.polled n }) := by
      rw [ataWrite, if_neg (here found), if_neg some, wait]
      exact if_pos (by decide)
    have did := polled_did d.ports n
    rw [run, did.status]
    exact ⟨found, _, did, .busy fun k idle => idle.2.2 (busy k idle.1)⟩

end Runs

end Seaweed
