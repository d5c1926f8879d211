import Seaweed.FishDisk

/-! `drivers/ata.c` over the port instructions of `io.h`. What a device answers is a stream
for each port, taken from the front by each reading, and every access is noted. -/

namespace Seaweed
open Library

inductive PortEvent where
  | inb (port : UInt16) (value : UInt8)
  | outb (port : UInt16) (value : UInt8)
  | inw (port value : UInt16)
  | outw (port value : UInt16)
deriving DecidableEq

structure Ports where
  bytes : UInt16 → Stream' UInt8
  words : UInt16 → Stream' UInt16
  trace : List PortEvent

def Ports.note (p : Ports) (event : PortEvent) : Ports := { p with trace := p.trace ++ [event] }

def inb (p : Ports) (port : UInt16) : UInt8 × Ports :=
  let value := (p.bytes port).head
  (value, { p with bytes := Function.update p.bytes port (p.bytes port).tail }.note (.inb port value))

def outb (p : Ports) (port : UInt16) (value : UInt8) : Ports := p.note (.outb port value)

def inw (p : Ports) (port : UInt16) : UInt16 × Ports :=
  let value := (p.words port).head
  (value, { p with words := Function.update p.words port (p.words port).tail }.note (.inw port value))

def outw (p : Ports) (port value : UInt16) : Ports := p.note (.outw port value)

abbrev ataData : UInt16 := 0x1F0
abbrev ataSeccount : UInt16 := 0x1F2
abbrev ataLbaLow : UInt16 := 0x1F3
abbrev ataLbaMid : UInt16 := 0x1F4
abbrev ataLbaHigh : UInt16 := 0x1F5
abbrev ataDrive : UInt16 := 0x1F6
abbrev ataStatus : UInt16 := 0x1F7
abbrev ataCommand : UInt16 := 0x1F7
abbrev ataControl : UInt16 := 0x3F6

abbrev statusErr : UInt8 := 0x01
abbrev statusDrq : UInt8 := 0x08
abbrev statusDf : UInt8 := 0x20
abbrev statusBsy : UInt8 := 0x80

abbrev cmdRead : UInt8 := 0x20
abbrev cmdWrite : UInt8 := 0x30
abbrev cmdFlush : UInt8 := 0xE7
abbrev cmdIdentify : UInt8 := 0xEC

abbrev waitLimit : ℕ := 1000000
abbrev sectorWords : ℕ := 256

def delay400ns (p : Ports) : Ports :=
  let (_, p) := inb p ataControl
  let (_, p) := inb p ataControl
  let (_, p) := inb p ataControl
  let (_, p) := inb p ataControl
  p

/-- The loop of `wait_ready` with the readings left. -/
def waitReadyFrom : ℕ → Ports → Int × Ports
  | 0, p => (-2, p)
  | left + 1, p =>
    let (status, p) := inb p ataStatus
    if status &&& statusBsy ≠ 0 then waitReadyFrom left p
    else if status &&& (statusErr ||| statusDf) ≠ 0 then (-1, p)
    else if status &&& statusDrq ≠ 0 then (0, p)
    else waitReadyFrom left p

def waitReady (p : Ports) : Int × Ports := waitReadyFrom waitLimit p

def waitNotBusyFrom : ℕ → Ports → Int × Ports
  | 0, p => (-2, p)
  | left + 1, p =>
    let (status, p) := inb p ataStatus
    if status &&& statusBsy = 0 then (0, p) else waitNotBusyFrom left p

def waitNotBusy (p : Ports) : Int × Ports := waitNotBusyFrom waitLimit p

def selectSector (p : Ports) (lba : UInt32) (count : UInt8) : Ports :=
  let p := outb p ataDrive ((0xE0 : UInt32) ||| ((lba >>> 24) &&& 0x0F)).toUInt8
  let p := outb p ataSeccount count
  let p := outb p ataLbaLow (lba &&& 0xFF).toUInt8
  let p := outb p ataLbaMid ((lba >>> 8) &&& 0xFF).toUInt8
  outb p ataLbaHigh ((lba >>> 16) &&& 0xFF).toUInt8

/-- A little-endian 16-bit access to the buffer of a transfer. -/
def halfAt (m : Bytes) (a : ℕ) : UInt16 := (m a).toUInt16 ||| ((m (a + 1)).toUInt16 <<< 8)

def storeHalf (m : Bytes) (a : ℕ) (word : UInt16) : Bytes :=
  Function.update (Function.update m a word.toUInt8) (a + 1) (word >>> 8).toUInt8

/-- The static variable `present` and the ports. -/
structure AtaDriver where
  present : Bool
  ports : Ports

/-- The words of the answer to IDENTIFY are read and dropped. -/
def dropWords : ℕ → Ports → Ports
  | 0, p => p
  | left + 1, p => dropWords left (inw p ataData).2

def ataInit (p : Ports) : Bool × AtaDriver :=
  let p := delay400ns (outb p ataDrive 0xA0)
  let (status, p) := inb p ataStatus
  if status = 0xFF ∨ status = 0 then (false, ⟨false, p⟩)
  else
    let p := outb p ataSeccount 0
    let p := outb p ataLbaLow 0
    let p := outb p ataLbaMid 0
    let p := outb p ataLbaHigh 0
    let p := delay400ns (outb p ataCommand cmdIdentify)
    let (status, p) := inb p ataStatus
    if status = 0 then (false, ⟨false, p⟩)
    else
      let (result, p) := waitReady p
      if result ≠ 0 then (false, ⟨false, p⟩) else (true, ⟨true, dropWords sectorWords p⟩)

/-- `*out++ = inw(ATA_DATA)` for the words left of a sector, with `out` at offset `a`. -/
def readWords : ℕ → ℕ → Bytes → Ports → Bytes × Ports
  | 0, _, m, p => (m, p)
  | left + 1, a, m, p =>
    let (word, p) := inw p ataData
    readWords left (a + 2) (storeHalf m a word) p

def writeWords (m : Bytes) : ℕ → ℕ → Ports → Ports
  | 0, _, p => p
  | left + 1, a, p => writeWords m left (a + 2) (outw p ataData (halfAt m a))

/-- Below a count of at most 255 the 8-bit counter does not wrap. -/
theorem sector_counts {sector count : UInt8} (more : sector < count) :
    (sector + 1).toNat = sector.toNat + 1 ∧ sector.toNat < count.toNat := by
  have less := UInt8.lt_iff_toNat_lt.mp more
  have bound := count.toNat_lt
  refine ⟨?_, less⟩
  rw [UInt8.toNat_add]
  change (sector.toNat + 1) % 2 ^ 8 = _
  omega

/-- The loop of `ata_read` over the sectors, with `out` at offset `a`. -/
def readSectors (count sector : UInt8) (a : ℕ) (m : Bytes) (p : Ports) : Int × Bytes × Ports :=
  if sector < count then
    let (result, p) := waitReady p
    if result ≠ 0 then (result, m, p)
    else
      let (m, p) := readWords sectorWords a m p
      readSectors count (sector + 1) (a + 2 * sectorWords) m (delay400ns p)
  else (0, m, p)
termination_by count.toNat - sector.toNat
decreasing_by
  have counts := sector_counts ‹sector < count›
  omega

def writeSectors (count sector : UInt8) (m : Bytes) (a : ℕ) (p : Ports) : Int × Ports :=
  if sector < count then
    let (result, p) := waitReady p
    if result ≠ 0 then (result, p)
    else writeSectors count (sector + 1) m (a + 2 * sectorWords) (delay400ns (writeWords m sectorWords a p))
  else (0, p)
termination_by count.toNat - sector.toNat
decreasing_by
  have counts := sector_counts ‹sector < count›
  omega

/-- The result of the transfer and the memory from `buffer` on. -/
def ataRead (d : AtaDriver) (lba : UInt32) (count : UInt8) (buffer : Bytes) : Int × Bytes × AtaDriver :=
  if !d.present then (-1, buffer, d)
  else if count = 0 then (0, buffer, d)
  else
    let (idle, p) := waitNotBusy d.ports
    if idle ≠ 0 then (-2, buffer, { d with ports := p })
    else
      let (result, m, p) := readSectors count 0 0 buffer (outb (selectSector p lba count) ataCommand cmdRead)
      (result, m, { d with ports := p })

/-- What the wait after FLUSH finds is dropped. -/
def ataWrite (d : AtaDriver) (lba : UInt32) (count : UInt8) (buffer : Bytes) : Int × AtaDriver :=
  if !d.present then (-1, d)
  else if count = 0 then (0, d)
  else
    let (idle, p) := waitNotBusy d.ports
    if idle ≠ 0 then (-2, { d with ports := p })
    else
      let (result, p) := writeSectors count 0 buffer 0 (outb (selectSector p lba count) ataCommand cmdWrite)
      if result ≠ 0 then (result, { d with ports := p })
      else
        let (_, p) := waitNotBusy (outb p ataCommand cmdFlush)
        (0, { d with ports := p })

/-- The driver and the port accesses of each call of `ata_write` so far. -/
structure AtaLog where
  driver : AtaDriver
  writes : List (List PortEvent)

/-- The driver as Fish uses it, one sector at a time. -/
def ataDriver : Ata AtaLog where
  init d :=
    let (found, driver) := ataInit d.driver.ports
    (found, { d with driver := driver })
  present d := d.driver.present
  read lba d :=
    let (result, m, driver) := ataRead d.driver (UInt32.ofNat lba) 1 fun _ => 0
    (if result = 0 then some fun i => m i else none, { d with driver := driver })
  write lba sector d :=
    let (result, driver) := ataWrite d.driver (UInt32.ofNat lba) 1 sector.at
    (decide (result = 0), ⟨driver, d.writes ++ [driver.ports.trace.drop d.driver.ports.trace.length]⟩)

end Seaweed
