import Seaweed.Proofs.PioCalls

/-! Fish over the ports: what it asks of a disk, question by question, and a drive that keeps
to the protocol, which answers as a disk that never fails. -/

namespace Seaweed
open Library

variable {σ : Type} {d : PioDrive} {log : AtaLog} {disk : Drive}

/-- A question that Fish puts to `ata.h`. -/
inductive DiskCall where
  | init
  | present
  | read (lba : Lba)
  | write (lba : Lba) (sector : Sector)

namespace DiskCall

abbrev Reply : DiskCall → Type
  | read _ => Option Sector
  | _ => Bool

def run (ata : Ata σ) : (call : DiskCall) → σ → call.Reply × σ
  | init, d => ata.init d
  | present, d => (ata.present d, d)
  | read lba, d => ata.read lba d
  | write lba sector, d => ata.write lba sector d

end DiskCall

/-- What Fish asks in one call, and what it makes of the answers. -/
abbrev DiskTalk (α : Type) : Type := Dialogue DiskCall DiskCall.Reply α

section Answers

/-- The driver and the drive are what the disk stands for. -/
structure Drive.Speaks (disk : Drive) (d : PioDrive) (log : AtaLog) : Prop where
  found : log.driver.present = disk.present
  plugged : disk.present = true → disk.attached = true
  attached : d.attached = disk.attached
  idle : d.task = .idle
  flushed : d.cache = d.stored
  stored : d.stored = disk.sectors
  fine : ∀ n, disk.faulty n = false

theorem fetched_sector (sectors : ℕ → Sector) (lba : ℕ) (m : Bytes) :
    (fun i : Fin 512 => fetched sectors lba (1 : UInt8).toNat m i) = sectors lba := by
  funext i
  have low : i.val < 512 * (1 : UInt8).toNat := i.isLt
  have first : i.val / 512 = 0 := Nat.div_eq_of_lt i.isLt
  rw [fetched, if_pos low, first, Nat.mod_eq_of_lt i.isLt, Nat.add_zero]
  exact Buffer.at_val (sectors lba) i

theorem written_sector (sectors : ℕ → Sector) (lba : ℕ) (sector : Sector) :
    written sectors lba (1 : UInt8).toNat sector.at 0 = Function.update sectors lba sector := by
  have single : sectorAt sector.at 0 = sector := by
    funext i
    exact (congrArg sector.at (Nat.zero_add _)).trans (Buffer.at_val sector i)
  have whole := (written_succ sectors lba 0 sector.at 0).symm.trans (written_zero ..)
  rwa [single] at whole

theorem DiskCall.run_grows (call : DiskCall) (log : AtaLog) :
    log.driver.ports.trace <+: (call.run ataDriver log).2.driver.ports.trace := by
  cases call with
  | init =>
    have probes : log.driver.ports.trace <+: (probe log.driver.ports).2.trace :=
      (outb_grows _ _ _).trans ((delay400ns_grows _).trans (inb_grows _ _))
    exact probes.trans (ataInit_grows log.driver.ports)
  | present => exact List.prefix_refl _
  | read lba =>
    have grows := ataRead_grows log.driver (UInt32.ofNat lba) 1 fun _ => 0
    rcases ran : ataRead log.driver (UInt32.ofNat lba) 1 (fun _ => 0) with ⟨result, m, driver⟩
    rw [ran] at grows
    simp only [DiskCall.run, ataDriver, ran]
    exact grows
  | write lba sector =>
    have grows := ataWrite_grows log.driver (UInt32.ofNat lba) 1 sector.at
    rcases ran : ataWrite log.driver (UInt32.ofNat lba) 1 sector.at with ⟨result, driver⟩
    rw [ran] at grows
    simp only [DiskCall.run, ataDriver, ran]
    exact grows

theorem Drive.Speaks.init (speaks : disk.Speaks d log) :
    pio.Serves d log.driver.ports.trace (ataDriver.init log).2.driver.ports.trace fun after =>
      (ataDriver.init log).1 = (drive.init disk).1 ∧ (drive.init disk).2.Speaks after (ataDriver.init log).2 := by
  have looked : pio.Serves d log.driver.ports.trace (ataInit log.driver.ports).2.ports.trace fun after =>
      (ataInit log.driver.ports).1 = disk.attached ∧ (ataInit log.driver.ports).2.present = disk.attached ∧
        (after = d ∨ after = d.identified) := by
    cases attached : disk.attached with
    | true =>
      refine (ataInit_serves (speaks.attached.trans attached) speaks.idle log.driver.ports).mono ?_
      rintro after ⟨found, present, same⟩
      exact ⟨found, present, .inr same⟩
    | false =>
      refine (ataInit_absent (speaks.attached.trans attached) log.driver.ports).mono ?_
      rintro after ⟨found, present, same⟩
      exact ⟨found, present, .inl same⟩
  refine looked.mono ?_
  rintro after ⟨found, present, rfl | rfl⟩
  · exact ⟨found, present, id, speaks.attached, speaks.idle, speaks.flushed, speaks.stored, speaks.fine⟩
  · exact ⟨found, present, id, speaks.attached, speaks.idle, speaks.flushed, speaks.stored, speaks.fine⟩

theorem Drive.Speaks.read (speaks : disk.Speaks d log) (lba : Lba) :
    pio.Serves d log.driver.ports.trace (ataDriver.read lba log).2.driver.ports.trace fun after =>
      (ataDriver.read lba log).1 = (drive.read lba disk).1 ∧ (drive.read lba disk).2.Speaks after (ataDriver.read lba log).2 := by
  cases present : disk.present with
  | false =>
    have missing : (!log.driver.present) = true := by rw [speaks.found, present]; rfl
    have run : ataRead log.driver (UInt32.ofNat lba) 1 (fun _ => 0) = (-1, fun _ => 0, log.driver) := by
      rw [ataRead, if_pos missing]
    have answer : drive.read lba disk = (none, disk) := by
      simp only [drive, present, Bool.not_false, if_true]
    rw [answer]
    simp only [ataDriver, run]
    exact .refl ⟨rfl, speaks⟩
  | true =>
    have attached := speaks.attached.trans (speaks.plugged present)
    have answer : drive.read lba disk = (some (disk.sectors lba), disk.tick) := by
      simp only [drive, present, speaks.fine, Bool.not_true, Bool.false_eq_true, if_false]
    have holds : d.Found log.driver disk.sectors :=
      ⟨speaks.found.trans present, ⟨attached, speaks.idle, speaks.flushed⟩, speaks.stored⟩
    have serves := (AtaCall.read lba 1 fun _ => 0).run_serves holds
    rcases ran : ataRead log.driver (UInt32.ofNat lba) 1 (fun _ => 0) with ⟨result, m, driver⟩
    have run : (AtaCall.read lba 1 fun _ => 0).run log.driver = ((result, m), driver) := by
      simp only [AtaCall.run, Lba.word, ran]
    rw [run] at serves
    rw [answer]
    simp only [ataDriver, ran]
    refine serves.mono ?_
    rintro after ⟨same, found, rests, stored⟩
    cases same
    refine ⟨?_, found.trans present.symm, speaks.plugged, rests.attached.trans (speaks.plugged present).symm,
      rests.idle, rests.flushed, stored, speaks.fine⟩
    rw [if_pos rfl, fetched_sector]

theorem Drive.Speaks.write (speaks : disk.Speaks d log) (lba : Lba) (sector : Sector) :
    pio.Serves d log.driver.ports.trace (ataDriver.write lba sector log).2.driver.ports.trace fun after =>
      (ataDriver.write lba sector log).1 = (drive.write lba sector disk).1 ∧
        (drive.write lba sector disk).2.Speaks after (ataDriver.write lba sector log).2 := by
  cases present : disk.present with
  | false =>
    have missing : (!log.driver.present) = true := by rw [speaks.found, present]; rfl
    have run : ataWrite log.driver (UInt32.ofNat lba) 1 sector.at = (-1, log.driver) := by
      rw [ataWrite, if_pos missing]
    have answer : drive.write lba sector disk = (false, disk) := by
      simp only [drive, present, Bool.not_false, if_true]
    rw [answer]
    simp only [ataDriver, run]
    exact .refl ⟨rfl, speaks.found, speaks.plugged, speaks.attached, speaks.idle, speaks.flushed, speaks.stored, speaks.fine⟩
  | true =>
    have attached := speaks.attached.trans (speaks.plugged present)
    have answer : drive.write lba sector disk =
        (true, { disk.tick with sectors := Function.update disk.sectors lba sector }) := by
      simp only [drive, present, speaks.fine, Bool.not_true, Bool.false_eq_true, if_false]
    have holds : d.Found log.driver disk.sectors :=
      ⟨speaks.found.trans present, ⟨attached, speaks.idle, speaks.flushed⟩, speaks.stored⟩
    have serves := (AtaCall.write lba 1 sector.at).run_serves holds
    rcases ran : ataWrite log.driver (UInt32.ofNat lba) 1 sector.at with ⟨result, driver⟩
    have run : (AtaCall.write lba 1 sector.at).run log.driver = ((result, sector.at), driver) := by
      simp only [AtaCall.run, Lba.word, ran]
    rw [run] at serves
    rw [answer]
    simp only [ataDriver, ran]
    refine serves.mono ?_
    rintro after ⟨same, found, rests, stored⟩
    cases same
    refine ⟨rfl, found.trans present.symm, speaks.plugged, rests.attached.trans (speaks.plugged present).symm,
      rests.idle, rests.flushed, ?_, speaks.fine⟩
    rw [stored, AtaCall.meant, written_sector]

/-- To each question the driver has the answer that the disk has. -/
theorem Drive.Speaks.answers (speaks : disk.Speaks d log) (call : DiskCall) :
    pio.Serves d log.driver.ports.trace (call.run ataDriver log).2.driver.ports.trace fun after =>
      (call.run ataDriver log).1 = (call.run drive disk).1 ∧ (call.run drive disk).2.Speaks after (call.run ataDriver log).2 := by
  cases call with
  | init => exact speaks.init
  | present => exact .refl ⟨speaks.found, speaks⟩
  | read lba => exact speaks.read lba
  | write lba sector => exact speaks.write lba sector

/-- So it has in every talk. -/
theorem Drive.Speaks.talk {α : Type} (speaks : disk.Speaks d log) (talk : DiskTalk α) :
    pio.Serves d log.driver.ports.trace (talk.run (DiskCall.run ataDriver) log).2.driver.ports.trace fun after =>
      (talk.run (DiskCall.run ataDriver) log).1 = (talk.run (DiskCall.run drive) disk).1 ∧
        (talk.run (DiskCall.run drive) disk).2.Speaks after (talk.run (DiskCall.run ataDriver) log).2 :=
  @Dialogue.run_serves DiskCall DiskCall.Reply α AtaLog Drive PioDrive PortEvent (DiskCall.run ataDriver) (DiskCall.run drive) pio
    (fun log => log.driver.ports.trace) (fun d log disk => disk.Speaks d log) DiskCall.run_grows
    (fun call _ _ _ speaks => speaks.answers call) talk d log disk speaks

end Answers

section Talks

/-- The sectors that Fish uses have addresses that the registers hold. -/
theorem fish_lba {s left : ℕ} (inside : s + (left + 1) ≤ nodeSectors) : fishStartLba + 1 + s < 2 ^ 28 := by
  simp only [nodeSectors] at inside
  simp only [fishStartLba]
  omega

theorem saveSectors_talks (source : Bytes) (left : ℕ) {s : ℕ} (inside : s + left ≤ nodeSectors) (written : ℕ) :
    ∃ talk : DiskTalk FishCode, ∀ (σ : Type) (ata : Ata σ) (d : σ),
      saveSectors ata source left s written d = talk.run (DiskCall.run ata) d := by
  induction left generalizing s written with
  | zero => exact ⟨.done .ok, fun σ ata d => rfl⟩
  | succ left ih =>
    obtain ⟨rest, same⟩ := ih (s := s + 1) (by omega) (written + chunkOf written)
    refine ⟨.ask (.write ⟨fishStartLba + 1 + s, fish_lba inside⟩ fun i => if i < chunkOf written then source (written + i) else 0)
      fun (done : Bool) => if done then rest else .done .io, fun σ ata d => ?_⟩
    rw [saveSectors, Dialogue.run_ask, DiskCall.run]
    rcases ata.write (fishStartLba + 1 + s) (fun i => if i < chunkOf written then source (written + i) else 0) d with ⟨done, d'⟩
    cases done with
    | false => rfl
    | true => exact same σ ata d'

theorem fishSave_talks (s : Fish) :
    ∃ talk : DiskTalk FishCode, ∀ (σ : Type) (ata : Ata σ) (d : σ), fishSave ata s d = talk.run (DiskCall.run ata) d := by
  obtain ⟨rest, same⟩ := saveSectors_talks (image s.nodes) nodeSectors (Nat.zero_add nodeSectors).le 0
  refine ⟨.ask .present fun (here : Bool) => if here then
      .ask (.write ⟨fishStartLba, by decide⟩
        (Superblock.sector ⟨fishMagic, fishVersion, fishMaxNodes, nodeSize, s.current.toUInt32.toNat⟩))
        fun (done : Bool) => if done then rest else .done .io
    else .done .nodisk, fun σ ata d => ?_⟩
  rw [fishSave, Dialogue.run_ask, DiskCall.run]
  cases ata.present d with
  | false => rfl
  | true =>
    rw [if_neg (by decide), if_pos rfl, Dialogue.run_ask, DiskCall.run]
    rcases ata.write fishStartLba
      (Superblock.sector ⟨fishMagic, fishVersion, fishMaxNodes, nodeSize, s.current.toUInt32.toNat⟩) d with ⟨done, d'⟩
    cases done with
    | false => rfl
    | true => exact same σ ata d'

theorem loadSectors_talks (left : ℕ) {s : ℕ} (inside : s + left ≤ nodeSectors) (readSoFar : ℕ) (nodes : Fin fishMaxNodes → Node) :
    ∃ talk : DiskTalk (FishCode × (Fin fishMaxNodes → Node)), ∀ (σ : Type) (ata : Ata σ) (d : σ),
      loadSectors ata left s readSoFar nodes d =
        ((talk.run (DiskCall.run ata) d).1.1, (talk.run (DiskCall.run ata) d).1.2, (talk.run (DiskCall.run ata) d).2) := by
  induction left generalizing s readSoFar nodes with
  | zero => exact ⟨.done (.ok, nodes), fun σ ata d => rfl⟩
  | succ left ih =>
    choose rest same using fun nodes => ih (s := s + 1) (by omega) (readSoFar + chunkOf readSoFar) nodes
    refine ⟨.ask (.read ⟨fishStartLba + 1 + s, fish_lba inside⟩) fun (found : Option Sector) =>
      found.elim (.done (.io, nodes)) fun sector => rest (pour nodes readSoFar (chunkOf readSoFar) sector), fun σ ata d => ?_⟩
    rw [loadSectors, Dialogue.run_ask, DiskCall.run]
    rcases ata.read (fishStartLba + 1 + s) d with ⟨sector, d'⟩
    cases sector with
    | none => rfl
    | some sector => exact same _ σ ata d'

/-- What `fish_load` makes of the nodes that have come in. -/
def acceptNodes (s : Fish) (saved : ℕ) : FishCode × (Fin fishMaxNodes → Node) → FishCode × Fish
  | (.ok, nodes) => if (nodes 0).used = 0 ∨ (nodes 0).isDir = 0 then (.format, fishInit) else (.ok, ⟨nodes, loadCurrent nodes saved⟩)
  | (code, nodes) => (code, { s with nodes := nodes })

theorem fishLoad_talks (s : Fish) :
    ∃ talk : DiskTalk (FishCode × Fish), ∀ (σ : Type) (ata : Ata σ) (d : σ),
      fishLoad ata s d =
        ((talk.run (DiskCall.run ata) d).1.1, (talk.run (DiskCall.run ata) d).1.2, (talk.run (DiskCall.run ata) d).2) := by
  obtain ⟨rest, same⟩ := loadSectors_talks nodeSectors (Nat.zero_add nodeSectors).le 0 s.nodes
  refine ⟨.ask .present fun (here : Bool) => if here then
      .ask (.read ⟨fishStartLba, by decide⟩) fun (found : Option Sector) => found.elim (.done (.io, s)) fun sector =>
        let sb := Superblock.ofSector sector
        if sb.magic ≠ fishMagic then .done (.format, s)
        else if sb.version ≠ fishVersion then .done (.format, s)
        else if sb.nodeCount ≠ fishMaxNodes then .done (.format, s)
        else if sb.nodeSize ≠ nodeSize then .done (.format, s)
        else rest.andThen fun answer => .done (acceptNodes s sb.current answer)
    else .done (.nodisk, s), fun σ ata d => ?_⟩
  rw [fishLoad, Dialogue.run_ask, DiskCall.run]
  cases ata.present d with
  | false => rfl
  | true =>
    rw [if_neg (by decide), if_pos rfl, Dialogue.run_ask, DiskCall.run]
    rcases ata.read fishStartLba d with ⟨found, d'⟩
    cases found with
    | none => rfl
    | some sector =>
      simp only [Option.elim_some]
      split_ifs
      · rfl
      · rfl
      · rfl
      · rfl
      rw [Dialogue.run_andThen, same]
      rcases rest.run (DiskCall.run ata) d' with ⟨⟨code, nodes⟩, last⟩
      cases code with
      | ok =>
        simp only [Dialogue.run_done, acceptNodes]
        split_ifs <;> rfl
      | _ => rfl

end Talks

end Seaweed
