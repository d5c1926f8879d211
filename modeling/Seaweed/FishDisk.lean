import Seaweed.Fish
import Seaweed.Library.Words

/-! The disk half of `fs/fish.c`: the byte image of the nodes in the layout of the
32-bit build, and `fish_save` and `fish_load` over the sector transfers of `ata.h`. -/

namespace Seaweed
open Library

abbrev Sector := Buffer 512

def Buffer.at {n : ℕ} (buffer : Buffer n) (k : ℕ) : UInt8 := if inside : k < n then buffer ⟨k, inside⟩ else 0

/-- What Fish uses of `ata.h`, on a device in state `σ`. A transfer of one sector that
fails answers `none` or `false`. -/
structure Ata (σ : Type) where
  init : σ → Bool × σ
  present : σ → Bool
  read : ℕ → σ → Option Sector × σ
  write : ℕ → Sector → σ → Bool × σ

/-- A disk that stores sectors whole. The transfer number `n` since the beginning of
time fails when `faulty n` says so; a failed write leaves its sector as it was. -/
structure Drive where
  attached : Bool
  present : Bool
  sectors : ℕ → Sector
  faulty : ℕ → Bool
  clock : ℕ

def Drive.tick (d : Drive) : Drive := { d with clock := d.clock + 1 }

def drive : Ata Drive where
  init d := (d.attached, { d with present := d.attached })
  present d := d.present
  read lba d :=
    if !d.present then (none, d)
    else if d.faulty d.clock then (none, d.tick)
    else (some (d.sectors lba), d.tick)
  write lba sector d :=
    if !d.present then (false, d)
    else if d.faulty d.clock then (false, d.tick)
    else (true, { d.tick with sectors := Function.update d.sectors lba sector })

/-- `sizeof(struct node)`: the name, four words and the data. -/
abbrev nodeSize : ℕ := 560
abbrev nodeBytes : ℕ := 35840
abbrev nodeSectors : ℕ := 70
abbrev fishStartLba : ℕ := 2048
abbrev fishMagic : ℕ := 0x48534946
abbrev fishVersion : ℕ := 1

example : nodeBytes = fishMaxNodes * nodeSize ∧ nodeSectors = (nodeBytes + 512 - 1) / 512 := by decide

/-- The byte at offset `k` of a `struct node`. -/
def Node.byte (n : Node) (k : ℕ) : UInt8 :=
  if k < 32 then n.name.at k
  else if k < 36 then byteOf n.used.toUInt32.toNat (k - 32)
  else if k < 40 then byteOf n.isDir.toUInt32.toNat (k - 36)
  else if k < 44 then byteOf n.parent.toUInt32.toNat (k - 40)
  else if k < 48 then byteOf n.size.toNat (k - 44)
  else n.data.at (k - 48)

def nodeAt (m : Bytes) (a : ℕ) : Node where
  name i := m (a + i)
  used := (UInt32.ofNat (wordAt m (a + 32))).toInt32
  isDir := (UInt32.ofNat (wordAt m (a + 36))).toInt32
  parent := (UInt32.ofNat (wordAt m (a + 40))).toInt32
  size := UInt32.ofNat (wordAt m (a + 44))
  data i := m (a + 48 + i)

def image (nodes : Fin fishMaxNodes → Node) : Bytes :=
  fun k => if inside : k / nodeSize < fishMaxNodes then (nodes ⟨k / nodeSize, inside⟩).byte (k % nodeSize) else 0

def nodesAt (m : Bytes) : Fin fishMaxNodes → Node := fun i => nodeAt m (nodeSize * i)

/-- `memcpy((char *)nodes + offset, sector, chunk)`. -/
def pour (nodes : Fin fishMaxNodes → Node) (offset chunk : ℕ) (sector : Sector) : Fin fishMaxNodes → Node :=
  nodesAt fun k => if offset ≤ k ∧ k < offset + chunk then sector.at (k - offset) else image nodes k

structure Superblock where
  magic : ℕ
  version : ℕ
  nodeCount : ℕ
  nodeSize : ℕ
  current : ℕ

def Superblock.sector (sb : Superblock) : Sector := fun i =>
  match i.val / 4 with
  | 0 => byteOf sb.magic (i.val % 4)
  | 1 => byteOf sb.version (i.val % 4)
  | 2 => byteOf sb.nodeCount (i.val % 4)
  | 3 => byteOf sb.nodeSize (i.val % 4)
  | 4 => byteOf sb.current (i.val % 4)
  | _ => 0

def Superblock.ofSector (sector : Sector) : Superblock where
  magic := wordAt sector.at 0
  version := wordAt sector.at 4
  nodeCount := wordAt sector.at 8
  nodeSize := wordAt sector.at 12
  current := wordAt sector.at 16

def chunkOf (moved : ℕ) : ℕ := if nodeBytes - moved < 512 then nodeBytes - moved else 512

section Transfers

variable {σ : Type} (ata : Ata σ)

/-- The loop of `fish_save` from sector `s` on, with the count of sectors left. -/
def saveSectors (source : Bytes) : ℕ → ℕ → ℕ → σ → FishCode × σ
  | 0, _, _, d => (.ok, d)
  | left + 1, s, written, d =>
    let sector : Sector := fun i => if i < chunkOf written then source (written + i) else 0
    match ata.write (fishStartLba + 1 + s) sector d with
    | (false, d) => (.io, d)
    | (true, d) => saveSectors source left (s + 1) (written + chunkOf written) d

def fishSave (s : Fish) (d : σ) : FishCode × σ :=
  if !ata.present d then (.nodisk, d)
  else
    match ata.write fishStartLba
      (Superblock.sector ⟨fishMagic, fishVersion, fishMaxNodes, nodeSize, s.current.toUInt32.toNat⟩) d with
    | (false, d) => (.io, d)
    | (true, d) => saveSectors ata (image s.nodes) nodeSectors 0 0 d

/-- The loop of `fish_load` from sector `s` on; it overwrites the nodes as it goes. -/
def loadSectors : ℕ → ℕ → ℕ → (Fin fishMaxNodes → Node) → σ → FishCode × (Fin fishMaxNodes → Node) × σ
  | 0, _, _, nodes, d => (.ok, nodes, d)
  | left + 1, s, readSoFar, nodes, d =>
    match ata.read (fishStartLba + 1 + s) d with
    | (none, d) => (.io, nodes, d)
    | (some sector, d) =>
      loadSectors left (s + 1) (readSoFar + chunkOf readSoFar)
        (pour nodes readSoFar (chunkOf readSoFar) sector) d

/-- `sb.current` when it is a used directory of the nodes read, else the root. -/
def loadCurrent (nodes : Fin fishMaxNodes → Node) (saved : ℕ) : Int32 :=
  if inside : saved < fishMaxNodes then
    if (nodes ⟨saved, inside⟩).used = 0 ∨ (nodes ⟨saved, inside⟩).isDir = 0 then 0
    else index ⟨saved, inside⟩
  else 0

def fishLoad (s : Fish) (d : σ) : FishCode × Fish × σ :=
  if !ata.present d then (.nodisk, s, d)
  else
    match ata.read fishStartLba d with
    | (none, d) => (.io, s, d)
    | (some sector, d) =>
      let sb := Superblock.ofSector sector
      if sb.magic ≠ fishMagic then (.format, s, d)
      else if sb.version ≠ fishVersion then (.format, s, d)
      else if sb.nodeCount ≠ fishMaxNodes then (.format, s, d)
      else if sb.nodeSize ≠ nodeSize then (.format, s, d)
      else
        match loadSectors ata nodeSectors 0 0 s.nodes d with
        | (.ok, nodes, d) =>
          if (nodes 0).used = 0 ∨ (nodes 0).isDir = 0 then (.format, fishInit, d)
          else (.ok, ⟨nodes, loadCurrent nodes sb.current⟩, d)
        | (code, nodes, d) => (code, { s with nodes := nodes }, d)

end Transfers

end Seaweed
