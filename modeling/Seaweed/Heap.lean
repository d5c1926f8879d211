import Seaweed.Library.Words

/-! `kernel/heap.c` over the bytes of memory, headers included. A pointer is an address
and a `size_t` a `UInt32`. A loop along the list answers `none` when its fuel runs out. -/

namespace Seaweed
open Library

abbrev heapSize : ℕ := 262144
abbrev heapAlignment : UInt32 := 8

abbrev blockHeader : ℕ := 12

/-- Where the linker puts the static array `arena`. -/
structure Arena where
  base : ℕ
  positive : 0 < base
  fits : base + heapSize ≤ 2 ^ 32

structure Heap where
  mem : Bytes
  first : ℕ

section Headers

variable (m : Bytes) (b : ℕ)

def blockSize : UInt32 := UInt32.ofNat (wordAt m b)

def blockFree : Bool := decide (wordAt m (b + 4) ≠ 0)

def blockNext : ℕ := wordAt m (b + 8)

end Headers

def alignUp (value : UInt32) : UInt32 := (value + (heapAlignment - 1)) &&& ~~~(heapAlignment - 1)

def heapInit (a : Arena) (m : Bytes) : Heap where
  mem := storeWord (storeWord (storeWord m a.base (heapSize - blockHeader)) (a.base + 4) 1) (a.base + 8) 0
  first := a.base

def payload (b : ℕ) : ℕ := b + blockHeader

/-- Leaves the block whole when the sum, taken in 32 bits, is larger than it. -/
def split (m : Bytes) (b : ℕ) (wanted : UInt32) : Bytes :=
  if blockSize m b < wanted + 12 + heapAlignment then m
  else
    let rest := payload b + wanted.toNat
    let m := storeWord m rest (blockSize m b - wanted - 12).toNat
    let m := storeWord m (rest + 4) 1
    let m := storeWord m (rest + 8) (blockNext m b)
    let m := storeWord m b wanted.toNat
    storeWord m (b + 8) rest

def kmallocFrom (size : UInt32) : ℕ → Bytes → ℕ → Option (ℕ × Bytes)
  | 0, _, _ => none
  | fuel + 1, m, b =>
    if b = 0 then some (0, m)
    else if blockFree m b ∧ size ≤ blockSize m b then some (payload b, storeWord (split m b size) (b + 4) 0)
    else kmallocFrom size fuel m (blockNext m b)

/-- The pointer `kmalloc` returns, 0 for `NULL`. -/
def kmalloc (h : Heap) (size : UInt32) : Option (ℕ × Heap) :=
  if size = 0 then some (0, h)
  else do
    let (p, m) ← kmallocFrom (alignUp size) heapSize h.mem h.first
    some (p, { h with mem := m })

def clear (m : Bytes) (p count : ℕ) : Bytes := fun x => if p ≤ x ∧ x < p + count then 0 else m x

def kcalloc (h : Heap) (count size : UInt32) : Option (ℕ × Heap) :=
  let total := count * size
  if count ≠ 0 ∧ total / count ≠ size then some (0, h)
  else do
    let (p, h) ← kmalloc h total
    if p ≠ 0 then some (p, { h with mem := clear h.mem p total.toNat }) else some (p, h)

/-- The loop of `coalesce` from block `b` on. It does not advance after a merge. -/
def coalesceFrom : ℕ → Bytes → ℕ → Option Bytes
  | 0, _, _ => none
  | fuel + 1, m, b =>
    if b = 0 ∨ blockNext m b = 0 then some m
    else if blockFree m b ∧ blockFree m (blockNext m b) then
      let m := storeWord m b (blockSize m b + (12 + blockSize m (blockNext m b))).toNat
      let m := storeWord m (b + 8) (blockNext m (blockNext m b))
      coalesceFrom fuel m b
    else coalesceFrom fuel m (blockNext m b)

def kfree (h : Heap) (p : ℕ) : Option Heap :=
  if p = 0 then some h
  else do
    let m := storeWord h.mem (p - blockHeader + 4) 1
    let m ← coalesceFrom heapSize m h.first
    some { h with mem := m }

/-- The loop of `heap_stats` from block `b` on, with the three sums so far. -/
def statsFrom (m : Bytes) : ℕ → ℕ → UInt32 → UInt32 → UInt32 → Option (UInt32 × UInt32 × UInt32)
  | 0, _, _, _, _ => none
  | fuel + 1, b, used, available, blocks =>
    if b = 0 then some (used, available, blocks)
    else if blockFree m b then statsFrom m fuel (blockNext m b) used (available + blockSize m b) (blocks + 1)
    else statsFrom m fuel (blockNext m b) (used + blockSize m b) available (blocks + 1)

def heapStats (h : Heap) : Option (UInt32 × UInt32 × UInt32) := statsFrom h.mem heapSize h.first 0 0 0

/-- A header as the list shows it. -/
structure Header where
  address : ℕ
  size : ℕ
  free : Bool
deriving DecidableEq

def headersFrom (m : Bytes) : ℕ → ℕ → Option (List Header)
  | 0, _ => none
  | fuel + 1, b =>
    if b = 0 then some []
    else do
      let rest ← headersFrom m fuel (blockNext m b)
      some (⟨b, (blockSize m b).toNat, blockFree m b⟩ :: rest)

def Heap.headers (h : Heap) : Option (List Header) := headersFrom h.mem heapSize h.first

/-- What a caller holds: the pointer, the size it asked for, and the byte it last stored
at each offset, if any. -/
structure Grant where
  pointer : ℕ
  size : ℕ
  stored : ℕ → Option UInt8

structure Session where
  heap : Heap
  live : List Grant

inductive HeapCall where
  | kmalloc (size : UInt32)
  | kcalloc (count size : UInt32)
  | kfree (p : ℕ)
  | store (p k : ℕ) (value : UInt8)

/-- A caller frees `NULL` or a live pointer, and stores inside the bytes it asked for. A
block asked for with more than `2^32 - 8` bytes has no such bytes to speak of, and a
`kcalloc` of it would clear them. -/
def HeapCall.Legal (s : Session) : HeapCall → Prop
  | .kmalloc _ => True
  | .kcalloc count size => count.toNat * size.toNat ≤ 2 ^ 32 - 8 ∨ 2 ^ 32 ≤ count.toNat * size.toNat
  | .kfree p => p = 0 ∨ ∃ g ∈ s.live, g.pointer = p
  | .store p k _ => ∃ g ∈ s.live, g.pointer = p ∧ k < g.size ∧ g.size ≤ 2 ^ 32 - 8

def HeapCall.run (s : Session) : HeapCall → Option Session
  | .kmalloc size => do
    let (p, h) ← Seaweed.kmalloc s.heap size
    some ⟨h, if p = 0 then s.live else ⟨p, size.toNat, fun _ => none⟩ :: s.live⟩
  | .kcalloc count size => do
    let (p, h) ← Seaweed.kcalloc s.heap count size
    some ⟨h, if p = 0 then s.live else ⟨p, (count * size).toNat, fun _ => some 0⟩ :: s.live⟩
  | .kfree p => do
    let h ← Seaweed.kfree s.heap p
    some ⟨h, s.live.filter fun g => decide (g.pointer ≠ p)⟩
  | .store p k value =>
    some ⟨{ s.heap with mem := Function.update s.heap.mem (p + k) value },
      s.live.map fun g =>
        if g.pointer = p then { g with stored := Function.update g.stored k (some value) } else g⟩

def Session.start (a : Arena) (m : Bytes) : Session := ⟨heapInit a m, []⟩

inductive HeapRun : Session → List HeapCall → Session → Prop where
  | done {s : Session} : HeapRun s [] s
  | call {s middle after : Session} {call : HeapCall} {rest : List HeapCall} (legal : call.Legal s)
      (ran : call.run s = some middle) (later : HeapRun middle rest after) : HeapRun s (call :: rest) after

def HeapCall.isStore : HeapCall → Bool
  | .store .. => true
  | _ => false

end Seaweed
