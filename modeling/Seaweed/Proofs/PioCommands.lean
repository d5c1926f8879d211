import Seaweed.Proofs.PioSectors

/-! The calls of `ata.h` against a drive that answers as it should, from one rest of the drive
to the next. -/

namespace Seaweed
open Library

variable {d : PioDrive} {driver : AtaDriver} {lba : UInt32} {count : UInt8} {good : PioDrive → Prop}

section Addresses

/-- The registers after `select_sector`. -/
def PioDrive.addressed (d : PioDrive) (lba : UInt32) (count : UInt8) : PioDrive :=
  { d with
    head := ((0xE0 : UInt32) ||| ((lba >>> 24) &&& 0x0F)).toUInt8
    count := count
    low := (lba &&& 0xFF).toUInt8
    mid := ((lba >>> 8) &&& 0xFF).toUInt8
    high := ((lba >>> 16) &&& 0xFF).toUInt8 }

theorem addressed_lba (short : lba.toNat < 2 ^ 28) : (d.addressed lba count).lba = lba.toNat := by
  obtain ⟨top, high, mid, low⟩ := address_parts short
  have nibble : ∀ head : UInt8, (head &&& 0x0F).toNat = head.toNat % 16 := fun head => by
    rw [UInt8.toNat_and]
    exact Nat.and_two_pow_sub_one_eq_mod head.toNat 4
  rw [PioDrive.lba, nibble]
  simp only [PioDrive.addressed, top, high, mid, low]
  omega

/-- The master drive, addressed by number. -/
theorem addressed_master (short : lba.toNat < 2 ^ 28) : (d.addressed lba count).head &&& 0xF0 = 0xE0 := by
  have top := (address_parts short).1
  have each : ∀ n < 16, UInt8.ofNat (14 * 16 + n) &&& 0xF0 = 0xE0 := by decide
  have small : lba.toNat / 2 ^ 24 < 16 := by omega
  rw [← each _ small, ← top, UInt8.ofNat_toNat]
  rfl

/-- Writes to ports, one after another. -/
def outbs (p : Ports) (writes : List (UInt16 × UInt8)) : Ports := writes.foldl (fun p write => outb p write.1 write.2) p

theorem outbs_grows (p : Ports) (writes : List (UInt16 × UInt8)) : p.trace <+: (outbs p writes).trace := by
  induction writes generalizing p with
  | nil => exact List.prefix_refl _
  | cons write writes ih => exact (List.prefix_append ..).trans (ih (outb p write.1 write.2))

theorem PioDrive.command_attached {code : UInt8} {after : PioDrive} (takes : d.command code = some after) :
    after.attached = d.attached := by
  unfold PioDrive.command at takes
  split_ifs at takes
  · cases takes
    rfl
  · cases takes
    rfl
  · split at takes <;> cases takes
    rfl
  · cases takes
    rfl

theorem PioDrive.write_attached {port : UInt16} {value : UInt8} {after : PioDrive} (writes : d.write port value = some after) :
    after.attached = d.attached := by
  unfold PioDrive.write at writes
  split at writes
  next =>
    split_ifs at writes
    all_goals first | exact d.command_attached writes | (cases writes; rfl)
  next => cases writes

/-- The drive takes writes that it allows. -/
theorem outbs_serves {writes : List (UInt16 × UInt8)} {after : PioDrive} (attached : d.attached = true)
    (takes : writes.foldlM (fun d write => d.write write.1 write.2) d = some after) (p : Ports) :
    pio.Serves d p.trace (outbs p writes).trace fun last => last = after := by
  induction writes generalizing d p with
  | nil =>
    cases takes
    exact .refl rfl
  | cons write writes ih =>
    rw [List.foldlM_cons] at takes
    obtain ⟨next, first, rest⟩ := Option.bind_eq_some_iff.mp takes
    have one : pio.Serves d p.trace (outb p write.1 write.2).trace fun last => last = next := outb_serves attached _ first rfl
    refine one.andThen (outbs_grows _ writes) ?_
    rintro last rfl
    exact ih ((d.write_attached first).trans attached) rest _

/-- What `select_sector` writes to the registers. -/
def selection (lba : UInt32) (count : UInt8) : List (UInt16 × UInt8) :=
  [(ataDrive, ((0xE0 : UInt32) ||| ((lba >>> 24) &&& 0x0F)).toUInt8), (ataSeccount, count), (ataLbaLow, (lba &&& 0xFF).toUInt8),
    (ataLbaMid, ((lba >>> 8) &&& 0xFF).toUInt8), (ataLbaHigh, ((lba >>> 16) &&& 0xFF).toUInt8)]

/-- A drive at rest is addressed. -/
theorem selection_writes (idle : d.task = .idle) (lba : UInt32) (count : UInt8) :
    (selection lba count).foldlM (fun d write => d.write write.1 write.2) d = some (d.addressed lba count) := by
  obtain ⟨attached, identity, cache, stored, head, count', low, mid, high, task⟩ := d
  subst idle
  rfl

/-- A drive at rest takes a command. -/
theorem command_writes (idle : d.task = .idle) (code : UInt8) : d.write ataCommand code = d.command code := by
  rw [PioDrive.write, idle]
  rfl

/-- `select_sector` and a command, on a drive at rest. -/
theorem opening_serves (attached : d.attached = true) (idle : d.task = .idle) {code : UInt8} {after : PioDrive}
    (takes : (d.addressed lba count).command code = some after) (p : Ports) :
    pio.Serves d p.trace (outb (selectSector p lba count) ataCommand code).trace fun last => last = after := by
  have chosen : pio.Serves d p.trace (selectSector p lba count).trace fun last => last = d.addressed lba count :=
    outbs_serves attached (selection_writes idle lba count) p
  refine chosen.andThen (List.prefix_append ..) ?_
  rintro last rfl
  exact outb_serves (d := d.addressed lba count) attached code ((command_writes (d := d.addressed lba count) idle code).trans takes) rfl

end Addresses

section Reading

variable {buffer : Bytes}

/-- The sectors that a READ brings. -/
def PioDrive.sectors (d : PioDrive) (lba n : ℕ) : List Sector := (List.range n).map fun i => d.cache (lba + i)

theorem addressed_blocks (some : count ≠ 0) : (d.addressed lba count).blocks = count.toNat := if_neg some

theorem count_succ (some : count ≠ 0) : ∃ more, count.toNat = more + 1 := by
  refine Nat.exists_eq_succ_of_ne_zero fun zero => some ?_
  exact UInt8.toNat_inj.mp zero

theorem addressed_read (short : lba.toNat < 2 ^ 28) (some : count ≠ 0) :
    ∃ t, (d.addressed lba count).command cmdRead = Option.some { d.addressed lba count with task := t } ∧
      t.Hands (d.sectors lba.toNat count.toNat) := by
  obtain ⟨more, length⟩ := count_succ some
  have master := @addressed_master d lba count short
  have sectors : d.sectors lba.toNat (more + 1) =
      d.cache lba.toNat :: (List.range more).map fun i => d.cache (lba.toNat + (i + 1)) := by
    rw [PioDrive.sectors, List.range_succ_eq_map, List.map_cons, List.map_map]
    rfl
  have blocks : (List.range (d.addressed lba count).blocks).map (fun i => ((d.addressed lba count).cache ((d.addressed lba count).lba + i)).words) =
      (d.sectors lba.toNat (more + 1)).map Sector.words := by
    have cache : (d.addressed lba count).cache = d.cache := rfl
    rw [addressed_blocks some, addressed_lba short, cache, length, PioDrive.sectors, List.map_map, Function.comp_def]
  rw [sectors, List.map_cons] at blocks
  rw [length, sectors]
  refine ⟨.preparing 0 _ _, ?_, .inr ⟨0, by decide, rfl⟩⟩
  rw [PioDrive.command, if_neg (by decide), if_neg (by decide), if_neg (not_not_intro master), if_pos rfl, blocks]

/-- `ata_read` brings the sectors that it names, for every 28-bit address and every count. -/
theorem ataRead_serves (present : driver.present = true) (attached : d.attached = true) (idle : d.task = .idle)
    (short : lba.toNat < 2 ^ 28) (some : count ≠ 0) (buffer : Bytes) :
    pio.Serves d driver.ports.trace (ataRead driver lba count buffer).2.2.ports.trace fun after =>
      (ataRead driver lba count buffer).1 = 0 ∧
        Poured 0 (d.sectors lba.toNat count.toNat) buffer (ataRead driver lba count buffer).2.1 ∧
        after = d.addressed lba count := by
  have here : ¬ (!driver.present) = true := by
    rw [present]
    exact Bool.false_ne_true
  have rests := waitNotBusy_idle attached idle driver.ports
  rcases wait : waitNotBusy driver.ports with ⟨result, p⟩
  rw [wait] at rests
  by_cases good : result = 0
  · obtain ⟨t, takes, hands⟩ := @addressed_read d lba count short some
    have run : ataRead driver lba count buffer =
        ((readSectors count 0 0 buffer (outb (selectSector p lba count) ataCommand cmdRead)).1,
          (readSectors count 0 0 buffer (outb (selectSector p lba count) ataCommand cmdRead)).2.1,
          { driver with ports := (readSectors count 0 0 buffer (outb (selectSector p lba count) ataCommand cmdRead)).2.2 }) := by
      rw [ataRead, if_neg here, if_neg some, wait]
      exact if_neg (not_not_intro good)
    rw [run]
    have whole : (0 : UInt8).toNat + (d.sectors lba.toNat count.toNat).length = count.toNat := by
      rw [PioDrive.sectors, List.length_map, List.length_range]
      exact Nat.zero_add _
    have opens := opening_serves attached idle takes p
    generalize outb (selectSector p lba count) ataCommand cmdRead = p' at opens ⊢
    have grows : p'.trace <+: (readSectors count 0 0 buffer p').2.2.trace := by
      obtain ⟨_, _, did, _⟩ := readSectors_transfer whole 0 buffer p'
      exact ⟨_, did.trace.symm⟩
    refine rests.andThen (opens.grows.trans grows) ?_
    rintro after ⟨_, same⟩
    rw [same]
    refine opens.andThen grows ?_
    rintro after rfl
    refine (readSectors_serves (d := { d.addressed lba count with task := t }) attached hands whole 0 buffer p').mono ?_
    rintro after ⟨done, poured, rfl⟩
    refine ⟨done, poured, ?_⟩
    rw [PioDrive.addressed, idle]
  · have run : ataRead driver lba count buffer = (-2, buffer, { driver with ports := p }) := by
      rw [ataRead, if_neg here, if_neg some, wait]
      exact if_pos good
    rw [run]
    exact rests.mono fun after holds => absurd holds.1 good

end Reading

section Writing

/-- The drive after sectors have been written and stored. -/
def PioDrive.holding (d : PioDrive) (sectors : ℕ → Sector) : PioDrive := { d with cache := sectors, stored := sectors }

theorem addressed_write (short : lba.toNat < 2 ^ 28) (some : count ≠ 0) :
    ∃ t, (d.addressed lba count).command cmdWrite = Option.some { d.addressed lba count with task := t } ∧
      t.Wants lba.toNat count.toNat := by
  obtain ⟨more, length⟩ := count_succ some
  have master := @addressed_master d lba count short
  rw [length]
  refine ⟨.asking 0 lba.toNat more, ?_, .inr ⟨0, by decide, rfl⟩⟩
  rw [PioDrive.command, if_neg (by decide), if_neg (by decide), if_neg (not_not_intro master), if_neg (by decide), if_pos rfl,
    addressed_blocks some, addressed_lba short, length]
  rfl

/-- FLUSH, and the wait for it. -/
theorem flush_serves (attached : d.attached = true) (idle : d.task = .idle) (p : Ports) :
    pio.Serves d p.trace (waitNotBusy (outb p ataCommand cmdFlush)).2.trace fun after =>
      after = { d with task := .idle, stored := d.cache } := by
  have takes : d.write ataCommand cmdFlush = some { d with task := .flushing 0 } := (command_writes idle cmdFlush).trans rfl
  have one : pio.Serves d p.trace (outb p ataCommand cmdFlush).trace fun last => last = { d with task := .flushing 0 } :=
    outb_serves attached cmdFlush takes rfl
  refine one.andThen (waitNotBusy_polls.grows ..) ?_
  rintro last rfl
  refine (waitNotBusy_flushes (d := { d with task := .flushing 0 }) attached rfl _).mono ?_
  rintro after ⟨_, rfl⟩
  rfl

section Branches

variable {p p' : Ports} {result : Int} {buffer : Bytes}

theorem ataWrite_busy (here : ¬ (!driver.present) = true) (some : count ≠ 0) (wait : waitNotBusy driver.ports = (result, p))
    (busy : result ≠ 0) : ataWrite driver lba count buffer = (-2, { driver with ports := p }) := by
  rw [ataWrite, if_neg here, if_neg some, wait]
  exact if_pos busy

theorem ataWrite_stopped (here : ¬ (!driver.present) = true) (some : count ≠ 0) (wait : waitNotBusy driver.ports = (0, p))
    (moved : writeSectors count 0 buffer 0 (outb (selectSector p lba count) ataCommand cmdWrite) = (result, p'))
    (stopped : result ≠ 0) : ataWrite driver lba count buffer = (result, { driver with ports := p' }) := by
  rw [ataWrite, if_neg here, if_neg some, wait]
  refine (if_neg (not_not_intro rfl)).trans ?_
  rw [moved]
  exact if_pos stopped

theorem ataWrite_done (here : ¬ (!driver.present) = true) (some : count ≠ 0) (wait : waitNotBusy driver.ports = (0, p))
    (moved : writeSectors count 0 buffer 0 (outb (selectSector p lba count) ataCommand cmdWrite) = (0, p')) :
    ataWrite driver lba count buffer = (0, { driver with ports := (waitNotBusy (outb p' ataCommand cmdFlush)).2 }) := by
  rw [ataWrite, if_neg here, if_neg some, wait]
  refine (if_neg (not_not_intro rfl)).trans ?_
  rw [moved]
  exact if_neg (not_not_intro rfl)

end Branches

/-- `ata_write` leaves the sectors of the buffer on the drive, where they outlast its power,
for every 28-bit address and every count. -/
theorem ataWrite_serves (present : driver.present = true) (attached : d.attached = true) (idle : d.task = .idle)
    (short : lba.toNat < 2 ^ 28) (some : count ≠ 0) (buffer : Bytes) :
    pio.Serves d driver.ports.trace (ataWrite driver lba count buffer).2.ports.trace fun after =>
      (ataWrite driver lba count buffer).1 = 0 ∧
        after = (d.addressed lba count).holding (written d.cache lba.toNat count.toNat buffer 0) := by
  have here : ¬ (!driver.present) = true := by
    rw [present]
    exact Bool.false_ne_true
  have rests := waitNotBusy_idle attached idle driver.ports
  rcases wait : waitNotBusy driver.ports with ⟨result, p⟩
  rw [wait] at rests
  by_cases good : result = 0
  · subst good
    obtain ⟨t, takes, wants⟩ := @addressed_write d lba count short some
    have whole : (0 : UInt8).toNat + count.toNat = count.toNat := Nat.zero_add _
    have opens := opening_serves attached idle takes p
    have moves := writeSectors_serves (d := { d.addressed lba count with task := t }) attached wants whole buffer 0
      (outb (selectSector p lba count) ataCommand cmdWrite)
    rcases moved : writeSectors count 0 buffer 0 (outb (selectSector p lba count) ataCommand cmdWrite) with ⟨result', p'⟩
    rw [moved] at moves
    by_cases good' : result' = 0
    · subst good'
      rw [ataWrite_done here some wait moved]
      have grows : p'.trace <+: (waitNotBusy (outb p' ataCommand cmdFlush)).2.trace :=
        (List.prefix_append ..).trans (waitNotBusy_polls.grows waitLimit (outb p' ataCommand cmdFlush))
      refine rests.andThen (opens.grows.trans (moves.grows.trans grows)) ?_
      rintro after ⟨_, same⟩
      rw [same]
      refine opens.andThen (moves.grows.trans grows) ?_
      rintro after rfl
      refine moves.andThen grows ?_
      rintro after ⟨_, rfl⟩
      refine (flush_serves (d := { d.addressed lba count with cache := _, task := .idle }) attached rfl p').mono ?_
      rintro after rfl
      refine ⟨rfl, ?_⟩
      rw [PioDrive.holding, PioDrive.addressed, idle]
    · rw [ataWrite_stopped here some wait moved good']
      refine rests.andThen (opens.grows.trans moves.grows) ?_
      rintro after ⟨_, same⟩
      rw [same]
      refine opens.andThen moves.grows ?_
      rintro after rfl
      exact moves.mono fun after holds => absurd holds.1 good'
  · rw [ataWrite_busy here some wait good]
    exact rests.mono fun after holds => absurd holds.1 good

end Writing

section Finding

/-- What `ata_init` finds on the bus, and the ports behind it. -/
def probe (p : Ports) : UInt8 × Ports := inb (delay400ns (outb p ataDrive 0xA0)) ataStatus

/-- The registers that `ata_init` clears. -/
def clearing : List (UInt16 × UInt8) := [(ataSeccount, 0), (ataLbaLow, 0), (ataLbaMid, 0), (ataLbaHigh, 0)]

/-- The status after IDENTIFY, and the ports behind it. -/
def identify (p : Ports) : UInt8 × Ports := inb (delay400ns (outb (outbs p clearing) ataCommand cmdIdentify)) ataStatus

theorem ataInit_floating {p : Ports} (floats : (probe p).1 = 0xFF ∨ (probe p).1 = 0) :
    ataInit p = (false, ⟨false, (probe p).2⟩) := if_pos floats

theorem ataInit_silent {p : Ports} (here : ¬ ((probe p).1 = 0xFF ∨ (probe p).1 = 0)) (silent : (identify (probe p).2).1 = 0) :
    ataInit p = (false, ⟨false, (identify (probe p).2).2⟩) := (if_neg here).trans (if_pos silent)

theorem ataInit_waits {p p' : Ports} {result : Int} (here : ¬ ((probe p).1 = 0xFF ∨ (probe p).1 = 0))
    (speaks : ¬ (identify (probe p).2).1 = 0) (wait : waitReady (identify (probe p).2).2 = (result, p')) :
    ataInit p = if result ≠ 0 then (false, ⟨false, p'⟩) else (true, ⟨true, dropWords sectorWords p'⟩) := by
  rw [ataInit]
  refine (if_neg here).trans ((if_neg speaks).trans ?_)
  generalize found : waitReady _ = waited
  obtain rfl : waited = (result, p') := found.symm.trans wait
  rfl

theorem dropWords_eq (left a : ℕ) (m : Bytes) (p : Ports) : dropWords left p = (readWords left a m p).2 := by
  induction left generalizing a m p with
  | zero => rfl
  | succ left ih => exact ih (a + 2) _ _

theorem dropWords_grows (left : ℕ) (p : Ports) : p.trace <+: (dropWords left p).trace := by
  obtain ⟨_, _, did, _⟩ := readWords_moves left 0 (fun _ => 0) p
  rw [dropWords_eq left 0 fun _ => 0]
  exact ⟨_, did.trace.symm⟩

theorem delay400ns_grows (p : Ports) : p.trace <+: (delay400ns p).trace := by
  obtain ⟨_, did⟩ := delay400ns_did p
  exact ⟨_, did.trace.symm⟩

theorem outb_grows (p : Ports) (port : UInt16) (value : UInt8) : p.trace <+: (outb p port value).trace :=
  List.prefix_append ..

theorem inb_grows (p : Ports) (port : UInt16) : p.trace <+: (inb p port).2.trace := List.prefix_append ..

theorem identify_grows (p : Ports) : p.trace <+: (identify p).2.trace :=
  (outbs_grows p clearing).trans ((outb_grows _ _ _).trans ((delay400ns_grows _).trans (inb_grows _ _)))

/-- Whatever it finds, the search goes on from the first status. -/
theorem ataInit_grows (p : Ports) : (probe p).2.trace <+: (ataInit p).2.ports.trace := by
  have asked := identify_grows (probe p).2
  by_cases floats : (probe p).1 = 0xFF ∨ (probe p).1 = 0
  · rw [ataInit_floating floats]
  by_cases silent : (identify (probe p).2).1 = 0
  · rw [ataInit_silent floats silent]
    exact asked
  have waits := waitReady_polls.grows waitLimit (identify (probe p).2).2
  rcases wait : waitReady (identify (probe p).2).2 with ⟨result, p'⟩
  rw [waitReady] at wait
  rw [wait] at waits
  rw [ataInit_waits floats silent wait]
  split
  · exact asked.trans waits
  · exact (asked.trans waits).trans (dropWords_grows _ _)

/-- On a floating bus nothing is found. -/
theorem ataInit_absent (absent : d.attached = false) (p : Ports) :
    pio.Serves d p.trace (ataInit p).2.ports.trace fun after => (ataInit p).1 = false ∧ (ataInit p).2.present = false ∧ after = d := by
  have free : ∀ event, pio.next d event = some d := by
    intro event
    cases event <;> simp only [pio, PioDrive.next, absent, Bool.not_false, if_true]
  have one : ∀ (p : Ports) (port : UInt16), pio.Serves d p.trace (inb p port).2.trace fun after =>
      after = d ∧ ((inb p port).1 = 0xFF ∨ (inb p port).1 = 0) := by
    intro p port
    refine .single fun right => ⟨d, free _, rfl, ?_⟩
    simp only [pio, PioDrive.answers, absent, Bool.false_eq_true, if_false] at right
    exact right
  have chosen : pio.Serves d p.trace (outb p ataDrive 0xA0).trace fun after => after = d := .single fun _ => ⟨d, free _, rfl⟩
  have probed : pio.Serves d p.trace (probe p).2.trace fun after => after = d ∧ ((probe p).1 = 0xFF ∨ (probe p).1 = 0) := by
    refine chosen.andThen ((delay400ns_grows _).trans (inb_grows _ _)) fun after same => ?_
    rw [same]
    refine (one (outb p ataDrive 0xA0) ataControl).andThen
      (((inb_grows _ _).trans ((inb_grows _ _).trans (inb_grows _ _))).trans (inb_grows _ _)) fun after holds => ?_
    rw [holds.1]
    refine (one _ ataControl).andThen (((inb_grows _ _).trans (inb_grows _ _)).trans (inb_grows _ _)) fun after holds => ?_
    rw [holds.1]
    refine (one _ ataControl).andThen ((inb_grows _ _).trans (inb_grows _ _)) fun after holds => ?_
    rw [holds.1]
    refine (one _ ataControl).andThen (inb_grows _ _) fun after holds => ?_
    rw [holds.1]
    exact one _ ataStatus
  refine probed.andThen (ataInit_grows p) fun after holds => ?_
  rw [ataInit_floating holds.2]
  exact .refl ⟨rfl, rfl, holds.1⟩

theorem resting_found {status : UInt8} (rests : Resting status) : ¬ (status = 0xFF ∨ status = 0) := by
  rintro (rfl | rfl)
  · exact rests.2.1 (by unfold Requests; decide)
  · exact rests.2.2 rfl

theorem ready_speaks {status : UInt8} (ready : Ready status) : status ≠ 0 := by
  rintro rfl
  exact ready.2.2 rfl

theorem pending_speaks {status : UInt8} (pending : Pending status) : status ≠ 0 := by
  rintro rfl
  rcases pending with busy | rests
  · exact busy rfl
  · exact rests.1.2.2 rfl

/-- The registers after `ata_init`. -/
def PioDrive.identified (d : PioDrive) : PioDrive := { d with head := 0xA0, count := 0, low := 0, mid := 0, high := 0 }

theorem probe_serves (attached : d.attached = true) (idle : d.task = .idle) (p : Ports) :
    pio.Serves d p.trace (probe p).2.trace fun after =>
      after = { d with head := 0xA0 } ∧ ¬ ((probe p).1 = 0xFF ∨ (probe p).1 = 0) := by
  have chosen : pio.Serves d p.trace (outb p ataDrive 0xA0).trace fun after => after = { d with head := 0xA0 } :=
    outb_serves attached 0xA0 (by rw [PioDrive.write, idle]; rfl) (by rw [idle])
  refine chosen.andThen ((delay400ns_grows _).trans (inb_grows _ _)) ?_
  rintro after rfl
  refine (delay400ns_idle (d := { d with head := 0xA0 }) attached idle _).andThen (inb_grows _ _) ?_
  rintro after rfl
  refine inb_serves (d := { d with head := 0xA0 }) attached (.inl rfl) fun shows => ?_
  simp only [PioDrive.shows, idle] at shows
  refine ⟨?_, resting_found shows⟩
  simp only [PioDrive.shown, idle]

/-- The words that answer IDENTIFY. -/
def PioDrive.answer (d : PioDrive) : List UInt16 := List.ofFn d.identity

theorem identify_serves (attached : d.attached = true) (idle : d.task = .idle) (p : Ports) :
    pio.Serves { d with head := 0xA0 } p.trace (identify p).2.trace fun after =>
      (∃ t, after = { d.identified with task := t } ∧ Soon (fun polls => .preparing polls d.answer []) (.sending d.answer []) t) ∧
        (identify p).1 ≠ 0 := by
  have cleared : pio.Serves { d with head := 0xA0 } p.trace (outbs p clearing).trace fun after => after = d.identified := by
    refine outbs_serves (d := { d with head := 0xA0 }) attached ?_ p
    obtain ⟨attached, identity, cache, stored, head, count, low, mid, high, task⟩ := d
    subst idle
    rfl
  refine cleared.andThen ((outb_grows _ _ _).trans ((delay400ns_grows _).trans (inb_grows _ _))) ?_
  rintro after rfl
  have asked : pio.Serves d.identified (outbs p clearing).trace (outb (outbs p clearing) ataCommand cmdIdentify).trace
      fun after => after = { d.identified with task := .preparing 0 d.answer [] } :=
    outb_serves (d := d.identified) attached cmdIdentify ((command_writes (d := d.identified) idle cmdIdentify).trans rfl) rfl
  refine asked.andThen ((delay400ns_grows _).trans (inb_grows _ _)) ?_
  rintro after rfl
  have awaits := Awaits.block d.answer []
  refine (delay400ns_soon (d := { d.identified with task := .preparing 0 d.answer [] }) attached awaits
    (.inr ⟨0, by decide, rfl⟩) _).andThen (inb_grows _ _) ?_
  rintro after ⟨t, rfl, there | ⟨polls, few, works⟩⟩
  · subst there
    refine inb_serves (d := { d.identified with task := .sending d.answer [] }) attached (.inl rfl) fun shows => ?_
    obtain ⟨ready, same⟩ := awaits.there shows
    exact ⟨⟨_, same, .inl rfl⟩, ready_speaks ready⟩
  · subst works
    refine inb_serves (d := { d.identified with task := .preparing polls d.answer [] }) attached (.inl rfl) fun shows => ?_
    rcases awaits.working shows with ⟨ready, same⟩ | ⟨pending, more, same⟩
    · exact ⟨⟨_, same, .inl rfl⟩, ready_speaks ready⟩
    · exact ⟨⟨_, same, .inr ⟨polls + 1, more, rfl⟩⟩, pending_speaks pending⟩

/-- A drive on the bus is found, and left at rest. -/
theorem ataInit_serves (attached : d.attached = true) (idle : d.task = .idle) (p : Ports) :
    pio.Serves d p.trace (ataInit p).2.ports.trace fun after =>
      (ataInit p).1 = true ∧ (ataInit p).2.present = true ∧ after = d.identified := by
  refine (probe_serves attached idle p).andThen (ataInit_grows p) ?_
  rintro after ⟨rfl, found⟩
  have asked := identify_serves attached idle (probe p).2
  by_cases silent : (identify (probe p).2).1 = 0
  · rw [ataInit_silent found silent]
    exact asked.mono fun after holds => absurd silent holds.2
  have waits := waitReady_polls.grows waitLimit (identify (probe p).2).2
  rcases wait : waitReady (identify (probe p).2).2 with ⟨result, p'⟩
  have wait' := wait
  rw [waitReady] at wait'
  rw [wait'] at waits
  rw [ataInit_waits found silent wait]
  have reads := dropWords_grows sectorWords p'
  have ready : ∀ t, Soon (fun polls => .preparing polls d.answer []) (.sending d.answer []) t →
      pio.Serves { d.identified with task := t } (identify (probe p).2).2.trace p'.trace fun after =>
        result = 0 ∧ after = { d.identified with task := .sending d.answer [] } := by
    intro t soon
    have serves := waitReady_serves (d := { d.identified with task := t }) attached (.block d.answer []) soon (identify (probe p).2).2
    rwa [wait] at serves
  by_cases good : result = 0
  · rw [if_neg (not_not_intro good)]
    refine asked.andThen (waits.trans reads) ?_
    rintro after ⟨⟨t, rfl, soon⟩, _⟩
    refine (ready t soon).andThen reads ?_
    rintro after ⟨_, rfl⟩
    obtain ⟨word, rest, words⟩ : ∃ word rest, d.answer = word :: rest := List.exists_cons_of_length_eq_add_one List.length_ofFn
    have length : rest.length + 1 = sectorWords := by
      rw [← List.length_cons, ← words]
      exact List.length_ofFn
    have drops := readWords_serves (d := { d.identified with task := .sending d.answer [] }) attached
      (congrArg (Task.sending · []) words) (fun _ => 0) 0 p'
    rw [length, ← dropWords_eq] at drops
    refine drops.mono ?_
    rintro after ⟨_, rfl⟩
    refine ⟨rfl, rfl, ?_⟩
    rw [PioDrive.identified, idle]
    rfl
  · rw [if_pos good]
    refine asked.andThen waits ?_
    rintro after ⟨⟨t, rfl, soon⟩, _⟩
    exact (ready t soon).mono fun after holds => absurd holds.1 good

end Finding
end Seaweed
