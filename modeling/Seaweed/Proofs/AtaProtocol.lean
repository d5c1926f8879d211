import Seaweed.Proofs.AtaCommands

/-! The protocol of a PIO transfer on the accesses of `ata_read` and `ata_write`: one
command, addressed before it is sent, and data in blocks that the drive asked for. -/

namespace Seaweed
open Library

def PortEvent.port : PortEvent → UInt16
  | .inb port _ | .outb port _ | .inw port _ | .outw port _ => port

def PortEvent.OnData (event : PortEvent) : Prop := event.port = ataData

/-- A READ or a WRITE, written to the command register. -/
def PortEvent.transfers : PortEvent → Bool
  | .outb port value => port = ataCommand && (value = cmdRead || value = cmdWrite)
  | _ => false

/-- The value last written to a register. -/
def register (events : List PortEvent) (port : UInt16) : Option UInt8 :=
  (events.filterMap fun | .outb other value => if other = port then some value else none | _ => none).getLast?

/-- What the registers hold after these accesses decodes to `lba` on the master drive in
LBA mode, and to `count`. -/
structure Addressed (events : List PortEvent) (lba : UInt32) (count : UInt8) : Prop where
  count : register events ataSeccount = some count
  address : ∃ drive high mid low : UInt8,
    register events ataDrive = some drive ∧ register events ataLbaHigh = some high ∧
    register events ataLbaMid = some mid ∧ register events ataLbaLow = some low ∧
    drive.toNat / 16 = 14 ∧
    drive.toNat % 16 * 2 ^ 24 + high.toNat * 2 ^ 16 + mid.toNat * 2 ^ 8 + low.toNat = lba.toNat

/-- The data port is accessed in blocks of 256 words, each right after a status reading
with BSY, ERR and DF clear and DRQ set. -/
inductive Blocks (move : UInt16 → PortEvent) : List PortEvent → List UInt16 → Prop where
  | quiet {events : List PortEvent} (quiet : ∀ event ∈ events, ¬ event.OnData) : Blocks move events []
  | block {before events : List PortEvent} {status : UInt8} {words others : List UInt16}
      (quiet : ∀ event ∈ before, ¬ event.OnData) (ready : Ready status) (whole : words.length = sectorWords)
      (rest : Blocks move events others) :
      Blocks move (before ++ .inb ataStatus status :: (words.map move ++ events)) (words ++ others)

structure PioProtocol (command : UInt8) (move : UInt16 → PortEvent) (lba : UInt32) (count : UInt8)
    (result : Int) (events : List PortEvent) (words : List UInt16) : Prop where
  once : events.countP PortEvent.transfers ≤ 1
  addressed : ∀ before sent after, events = before ++ sent :: after → sent.transfers = true →
    sent = .outb ataCommand command ∧ Addressed before lba count
  blocks : Blocks move events words
  moved : ∃ b, b ≤ count.toNat ∧ words.length = sectorWords * b ∧ (result = 0 ↔ b = count.toNat)

variable {lba : UInt32} {count command : UInt8} {buffer : Bytes} {s u : Stream' UInt8} {move : UInt16 → PortEvent} {n k : ℕ}
  {events quiet : List PortEvent} {words : List UInt16} {result : Int} {event : PortEvent}

section Addresses

theorem register_readings (s : Stream' UInt8) (k : ℕ) (events : List PortEvent) (port : UInt16) :
    register (readings s k ++ events) port = register events port := by
  have none : (readings s k).filterMap
      (fun | .outb other value => if other = port then some value else none | _ => none) = [] := by
    apply List.filterMap_eq_nil_iff.mpr
    intro event among
    obtain ⟨j, low, rfl⟩ := mem_readings.mp among
    rfl
  rw [register, List.filterMap_append, none, List.nil_append]
  rfl

/-- The four bits and three bytes that `select_sector` takes of a 28-bit address. -/
theorem address_parts (short : lba.toNat < 2 ^ 28) :
    ((0xE0 : UInt32) ||| ((lba >>> 24) &&& 0x0F)).toUInt8.toNat = 14 * 16 + lba.toNat / 2 ^ 24 ∧
    ((lba >>> 16) &&& 0xFF).toUInt8.toNat = lba.toNat / 2 ^ 16 % 256 ∧
    ((lba >>> 8) &&& 0xFF).toUInt8.toNat = lba.toNat / 2 ^ 8 % 256 ∧
    (lba &&& 0xFF).toUInt8.toNat = lba.toNat % 256 := by
  have low : ∀ x : ℕ, x &&& 255 = x % 256 := fun x => Nat.and_two_pow_sub_one_eq_mod x 8
  have nibble : ∀ x : ℕ, x &&& 15 = x % 16 := fun x => Nat.and_two_pow_sub_one_eq_mod x 4
  have top : ∀ x : ℕ, x < 16 → 224 ||| x = 224 + x := fun x small =>
    (@Nat.two_pow_add_eq_or_of_lt 4 x small 14).symm
  have small : lba.toNat / 16777216 % 16 < 16 := Nat.mod_lt _ (by decide)
  refine ⟨?_, ?_, ?_, ?_⟩
  · simp [nibble, Nat.shiftRight_eq_div_pow, top _ small]
    omega
  · simp [low, Nat.shiftRight_eq_div_pow]
  · simp [low, Nat.shiftRight_eq_div_pow]
  · simp [low]

theorem addressed_selected (short : lba.toNat < 2 ^ 28) (s : Stream' UInt8) (k : ℕ) (count : UInt8) :
    Addressed (readings s k ++ selected lba count) lba count := by
  obtain ⟨top, high, mid, low⟩ := address_parts short
  have chosen : ∀ port, register (readings s k ++ selected lba count) port = register (selected lba count) port :=
    register_readings s k (selected lba count)
  refine ⟨(chosen _).trans rfl, ((0xE0 : UInt32) ||| ((lba >>> 24) &&& 0x0F)).toUInt8, ((lba >>> 16) &&& 0xFF).toUInt8,
    ((lba >>> 8) &&& 0xFF).toUInt8, (lba &&& 0xFF).toUInt8, (chosen _).trans rfl, (chosen _).trans rfl, (chosen _).trans rfl,
    (chosen _).trans rfl, ?_, ?_⟩
  · rw [top]
    omega
  · rw [top, high, mid, low]
    omega

end Addresses

section Steps

theorem Blocks.after_quiet (blocks : Blocks move events words) (still : ∀ event ∈ quiet, ¬ event.OnData) :
    Blocks move (quiet ++ events) words := by
  cases blocks with
  | quiet none =>
    apply Blocks.quiet
    intro event among
    rcases List.mem_append.mp among with first | second
    · exact still event first
    · exact none event second
  | block none ready whole rest =>
    rw [← List.append_assoc]
    refine .block (fun event among => ?_) ready whole rest
    rcases List.mem_append.mp among with first | second
    · exact still event first
    · exact none event second

theorem Blocks.then_quiet (blocks : Blocks move events words) (still : ∀ event ∈ quiet, ¬ event.OnData) :
    Blocks move (events ++ quiet) words := by
  induction blocks with
  | quiet none =>
    apply Blocks.quiet
    intro event among
    rcases List.mem_append.mp among with first | second
    · exact none event first
    · exact still event second
  | block none ready whole rest ih =>
    rw [List.append_assoc, List.cons_append, List.append_assoc]
    exact .block none ready whole ih

theorem readings_quiet (among : event ∈ readings s k) : ¬ event.OnData ∧ event.transfers = false := by
  obtain ⟨j, low, rfl⟩ := mem_readings.mp among
  exact ⟨(by decide : ¬ ataStatus = ataData), rfl⟩

theorem Transfer.blocks (transfer : Transfer move n s events words result u) : Blocks move events words := by
  induction transfer with
  | done => exact .quiet fun event among => nomatch among
  | refused k never failed => exact .quiet fun event among => (readings_quiet among).1
  | @sector n k s u events words others result pauses ready whole rest ih =>
    rw [readings, Stream'.take_succ', List.map_append, List.append_assoc]
    refine .block (fun event among => (readings_quiet among).1) ready.2.2 whole (ih.after_quiet fun event among => ?_)
    obtain ⟨value, _, rfl⟩ := List.mem_map.mp among
    exact (by decide : ¬ ataControl = ataData)

theorem Transfer.commandless (transfer : Transfer move n s events words result u) (plain : ∀ word, (move word).transfers = false)
    (among : event ∈ events) : event.transfers = false := by
  rcases transfer.accesses among with ⟨status, rfl⟩ | ⟨value, rfl⟩ | ⟨word, rfl⟩
  · rfl
  · rfl
  · exact plain word

private theorem outb_quiet {port : UInt16} {value : UInt8} (apart : port ≠ ataData) (plain : port ≠ ataCommand) :
    ¬ (PortEvent.outb port value).OnData ∧ (PortEvent.outb port value).transfers = false :=
  ⟨apart, by rw [PortEvent.transfers, decide_eq_false plain, Bool.false_and]⟩

theorem selected_quiet (among : event ∈ selected lba count) : ¬ event.OnData ∧ event.transfers = false := by
  simp only [selected, List.mem_cons, List.not_mem_nil, or_false] at among
  rcases among with rfl | rfl | rfl | rfl | rfl
  all_goals exact outb_quiet (by decide) (by decide)

theorem countP_none (none : ∀ event ∈ events, event.transfers = false) : events.countP PortEvent.transfers = 0 := by
  apply List.countP_eq_zero.mpr
  intro event among
  rw [none event among]
  exact Bool.false_ne_true

/-- A run that makes only status readings. -/
theorem PioProtocol.idle (some : count ≠ 0) (failed : result ≠ 0) : PioProtocol command move lba count result (readings s k) [] where
  once := by
    rw [countP_none fun event among => (readings_quiet among).2]
    exact Nat.zero_le 1
  addressed := by
    intro before sent after split transfers
    have among : sent ∈ readings s k := split ▸ List.mem_append_right before List.mem_cons_self
    rw [(readings_quiet among).2] at transfers
    cases transfers
  blocks := .quiet fun event among => (readings_quiet among).1
  moved := by
    have more : count.toNat ≠ 0 := fun zero => some (UInt8.toNat_inj.mp zero)
    exact ⟨0, Nat.zero_le _, rfl, fun zero => absurd zero failed, fun zero => absurd zero.symm more⟩

/-- A run that makes a transfer, and after it nothing that the protocol speaks of. -/
theorem PioProtocol.of_transfer (short : lba.toNat < 2 ^ 28) (transfer : Transfer move count.toNat u events words result s)
    (plain : ∀ word, (move word).transfers = false) (known : PortEvent.transfers (.outb ataCommand command) = true)
    (still : ∀ event ∈ quiet, ¬ event.OnData ∧ event.transfers = false) {t : Stream' UInt8} :
    PioProtocol command move lba count result (opening t k lba count command ++ (events ++ quiet)) words := by
  have first : ∀ event ∈ readings t (k + 1) ++ selected lba count, ¬ event.OnData ∧ event.transfers = false := by
    intro event among
    rcases List.mem_append.mp among with reading | select
    · exact readings_quiet reading
    · exact selected_quiet select
  have last : ∀ event ∈ events ++ quiet, event.transfers = false := by
    intro event among
    rcases List.mem_append.mp among with early | late
    · exact transfer.commandless plain early
    · exact (still event late).2
  have shape : opening t k lba count command ++ (events ++ quiet) =
      (readings t (k + 1) ++ selected lba count) ++ .outb ataCommand command :: (events ++ quiet) := by
    simp only [opening, List.append_assoc, List.cons_append, List.nil_append]
  rw [shape]
  refine ⟨?_, ?_, ?_, transfer.blocks_moved⟩
  · rw [List.countP_append, List.countP_cons_of_pos known, countP_none fun event among => (first event among).2,
      countP_none last]
  · intro before sent after split transfers
    have lacks : sent ∉ readings t (k + 1) ++ selected lba count := by
      intro among
      rw [(first sent among).2] at transfers
      cases transfers
    obtain ⟨rest, rfl, found⟩ := split_after split lacks
    cases rest with
    | nil =>
      obtain ⟨rfl, -⟩ := List.cons.inj found
      rw [List.append_nil]
      exact ⟨rfl, addressed_selected short t (k + 1) count⟩
    | cons other rest =>
      obtain ⟨-, found⟩ := List.cons.inj found
      have among : sent ∈ events ++ quiet := found ▸ List.mem_append_right rest List.mem_cons_self
      rw [last sent among] at transfers
      cases transfers
  · have command : ∀ event ∈ [PortEvent.outb ataCommand command], ¬ event.OnData := by
      intro event among
      rw [List.mem_singleton.mp among]
      exact (by decide : ¬ ataCommand = ataData)
    have moved := transfer.blocks.then_quiet fun event among => (still event among).1
    exact (moved.after_quiet command).after_quiet fun event among => (first event among).1

end Steps

theorem pio_protocol (d : AtaDriver) (found : d.present = true) (lba : UInt32) (short : lba.toNat < 2 ^ 28)
    (count : UInt8) (some : 1 ≤ count) (buffer : Bytes) :
    (∃ events words, (ataRead d lba count buffer).2.2.ports.trace = d.ports.trace ++ events ∧
      PioProtocol cmdRead (PortEvent.inw ataData) lba count (ataRead d lba count buffer).1 events words ∧
      Filled 0 words buffer (ataRead d lba count buffer).2.1) ∧
    (∃ events words, (ataWrite d lba count buffer).2.ports.trace = d.ports.trace ++ events ∧
      PioProtocol cmdWrite (PortEvent.outw ataData) lba count (ataWrite d lba count buffer).1 events words ∧
      Sent buffer 0 words) := by
  have more : count ≠ 0 := by
    rintro rfl
    exact absurd some (by decide)
  constructor
  · obtain ⟨events, trace, run⟩ := ataRead_run found more lba buffer
    generalize (ataRead d lba count buffer).1 = result, (ataRead d lba count buffer).2.1 = m at run ⊢
    refine ⟨events, ?_⟩
    cases run with
    | busy => exact ⟨[], trace, .idle more (by decide), .nothing⟩
    | @moved k events words _ u _ idle transfer filled =>
      have protocol : PioProtocol cmdRead (PortEvent.inw ataData) lba count result
          (opening d.ports.status k lba count cmdRead ++ (events ++ [])) words :=
        .of_transfer short transfer (fun _ => rfl) rfl fun event among => absurd among List.not_mem_nil
      rw [List.append_nil] at protocol
      exact ⟨words, trace, protocol, filled⟩
  · obtain ⟨-, events, did, run⟩ := ataWrite_run found more lba buffer
    have trace := did.trace
    generalize (ataWrite d lba count buffer).1 = result, (ataWrite d lba count buffer).2.ports.status = u at run ⊢
    refine ⟨events, ?_⟩
    cases run with
    | busy never => exact ⟨[], trace, .idle more (by decide), .nothing⟩
    | @failed k events words _ u idle transfer sent bad =>
      have protocol : PioProtocol cmdWrite (PortEvent.outw ataData) lba count result
          (opening d.ports.status k lba count cmdWrite ++ (events ++ [])) words :=
        .of_transfer short transfer (fun _ => rfl) rfl fun event among => absurd among List.not_mem_nil
      rw [List.append_nil] at protocol
      exact ⟨words, trace, protocol, sent⟩
    | @done k j events words u idle transfer sent waited =>
      refine ⟨words, trace, .of_transfer short transfer (fun _ => rfl) rfl fun event among => ?_, sent⟩
      rcases List.mem_cons.mp among with rfl | reading
      · exact ⟨(by decide : ¬ ataCommand = ataData), rfl⟩
      · exact readings_quiet reading

/-- A drive that answers every status reading with RDY and DRQ. -/
def AtaDriver.eager : AtaDriver := ⟨true, ⟨fun _ => Stream'.const 0x48, fun _ => Stream'.const 0xAA55, []⟩⟩

theorem pio_protocol_of_eager :
    ∃ events words, PioProtocol cmdRead (PortEvent.inw ataData) 2049 70 (ataRead .eager 2049 70 fun _ => 0).1 events words ∧
      Filled 0 words (fun _ => 0) (ataRead .eager 2049 70 fun _ => 0).2.1 := by
  obtain ⟨⟨events, words, -, protocol, filled⟩, -⟩ := pio_protocol .eager rfl 2049 (by decide) 70 (by decide) fun _ => 0
  exact ⟨events, words, protocol, filled⟩

end Seaweed
