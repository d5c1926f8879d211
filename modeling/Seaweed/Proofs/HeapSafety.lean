import Seaweed.Proofs.HeapRuns

/-! What callers of the heap may rely on: the list tiles the arena, the live pointers are
its blocks in use, nobody's bytes change under them, and how large a block is. -/

namespace Seaweed
open Library FirstFit

variable {a : Arena} {s after : Session} {t : Ledger} {h : Heap} {l : HeapLayout} {p n : ℕ}

section Lists

theorem Holds.headers_eq (holds : Holds a h l) : h.headers = some (headersOf a.base l.blocks) := by
  have listed := holds.stored.headersFrom_eq a.positive l.length_lt
  rw [l.link_base, ← holds.first] at listed
  rw [Heap.headers, listed, holds.first]

theorem Holds.stats_eq (holds : Holds a h l) : ∃ used available blocks, heapStats h = some (used, available, blocks) ∧
    used.toNat = bytesOf false l.blocks ∧ available.toNat = bytesOf true l.blocks ∧ blocks.toNat = l.blocks.length := by
  have full := l.full
  have small : (0 : UInt32).toNat + (0 : UInt32).toNat + (0 : UInt32).toNat + span 12 l.blocks < 2 ^ 32 := by
    rw [full]
    decide
  obtain ⟨used, available, blocks, ran, u, f, n⟩ := holds.stored.statsFrom_eq a.positive l.length_lt 0 0 0 small
  rw [l.link_base, ← holds.first] at ran
  change used.toNat = 0 + _ at u
  change available.toNat = 0 + _ at f
  change blocks.toNat = 0 + _ at n
  exact ⟨used, available, blocks, ran, by omega, by omega, by omega⟩

/-- The list of headers of a session in order. -/
structure HeapIntact (a : Arena) (s : Session) (headers : List Header) : Prop where
  start : s.heap.first = a.base ∧ headers.head?.map Header.address = some a.base
  tiles : headers.IsChain fun b c => c.address = b.address + 12 + b.size
  last : ∀ b ∈ headers.getLast?, b.address + 12 + b.size = a.base + heapSize
  ascending : headers.Pairwise fun b c => b.address < c.address
  separated : headers.IsChain fun b c => ¬ (b.free = true ∧ c.free = true)
  live : ∀ p, (∃ g ∈ s.live, g.pointer = p) ↔ ∃ b ∈ headers, b.free = false ∧ p = b.address + 12
  once : (s.live.map Grant.pointer).Nodup
  apart : headers.Pairwise fun b c => b.address + 12 + b.size ≤ c.address
  inside : ∀ b ∈ headers, a.base ≤ b.address ∧ b.address + 12 + b.size ≤ a.base + heapSize
  stats : ∃ used available blocks, heapStats s.heap = some (used, available, blocks) ∧
    blocks.toNat = headers.length ∧ used.toNat + available.toNat + 12 * blocks.toNat = heapSize

theorem headersOf_length (a : ℕ) (blocks : List Block) : (headersOf a blocks).length = blocks.length := by
  induction blocks generalizing a with
  | nil => rfl
  | cons b rest ih => rw [headersOf, List.length_cons, List.length_cons, ih]

theorem Keeps.intact (keeps : Keeps a s t) : HeapIntact a s (headersOf a.base t.layout.blocks) where
  start := by
    refine ⟨keeps.holds.first, ?_⟩
    have base := t.layout.link_base a.base
    have positive := a.positive
    cases blocks : t.layout.blocks with
    | nil =>
      rw [blocks] at base
      exact absurd base (by simp only [link]; omega)
    | cons b rest => rfl
  tiles := headersOf_tiles
  last := fun b last => (headersOf_last last).trans (by rw [t.layout.full])
  ascending := headersOf_pairwise.imp fun below => by omega
  separated := headersOf_separated t.layout.separated
  live := by
    intro p
    rw [keeps.live_iff, keeps.owned]
    constructor
    · rintro ⟨n, member⟩
      obtain ⟨b, here, used, same, _⟩ := headersOf_taken.mp member
      exact ⟨b, here, used, same⟩
    · rintro ⟨b, here, used, same⟩
      exact ⟨b.size, headersOf_taken.mpr ⟨b, here, used, same, rfl⟩⟩
  once := keeps.once
  apart := headersOf_pairwise
  inside := fun b member => by
    have bounds := headersOf_inside member
    rwa [t.layout.full] at bounds
  stats := by
    obtain ⟨used, available, blocks, ran, u, f, n⟩ := keeps.holds.stats_eq
    have full := t.layout.full
    rw [span_eq] at full
    exact ⟨used, available, blocks, ran, by rw [n, headersOf_length], by omega⟩

/-- In every run of legal calls the heap stays intact, and the next call returns. -/
theorem heap_invariant (a : Arena) (m : Bytes) {calls : List HeapCall} {s : Session}
    (run : HeapRun (Session.start a m) calls s) :
    (∃ headers, s.heap.headers = some headers ∧ HeapIntact a s headers) ∧
      ∀ call : HeapCall, call.Legal s → ∃ after, call.run s = some after := by
  have keeps := (start_keeps a m).run run
  refine ⟨⟨_, keeps.holds.headers_eq, keeps.intact⟩, fun call legal => ?_⟩
  obtain ⟨after, ran, _⟩ := keeps.step legal
  exact ⟨after, ran⟩

def sampleArena : Arena := ⟨0x100000, by decide, by decide⟩

/-- Two blocks are given out there, the second is written to and the first taken back. -/
def sampleCalls : List HeapCall := [.kmalloc 100, .kmalloc 8, .store 0x100080 7 42, .kfree 0x10000c]

theorem sample_run : ∃ s, HeapRun (Session.start sampleArena fun _ => 0) sampleCalls s := by
  obtain ⟨s1, ran1, keeps1⟩ := (start_keeps sampleArena fun _ => 0).kmalloc_step 100
  obtain ⟨s2, ran2, keeps2⟩ := keeps1.kmalloc_step 8
  have live : s2.live.map (fun g => (g.pointer, g.size)) = [(0x100080, 8), (0x10000c, 100)] := keeps2.live.trans rfl
  have second : (0x100080, 8) ∈ s2.live.map fun g => (g.pointer, g.size) := by
    rw [live]
    exact List.mem_cons_self
  obtain ⟨g, member, same⟩ := List.mem_map.mp second
  obtain ⟨pointer, size⟩ := Prod.mk.inj same
  have legal3 : (HeapCall.store 0x100080 7 42).Legal s2 :=
    ⟨g, member, pointer, by rw [size]; decide, by rw [size]; decide⟩
  obtain ⟨s3, ran3, keeps3⟩ := keeps2.store_step legal3
  have legal4 : (HeapCall.kfree 0x10000c).Legal s3 :=
    .inr (keeps3.live_iff.mpr ⟨100, List.mem_cons_of_mem _ List.mem_cons_self⟩)
  obtain ⟨s4, ran4, _⟩ := keeps3.kfree_step legal4
  exact ⟨s4, .call trivial ran1 (.call trivial ran2 (.call legal3 ran3 (.call legal4 ran4 .done)))⟩

theorem heap_invariant_of_sample : ∃ s headers, HeapRun (Session.start sampleArena fun _ => 0) sampleCalls s ∧
    s.heap.headers = some headers ∧ HeapIntact sampleArena s headers := by
  obtain ⟨s, run⟩ := sample_run
  obtain ⟨⟨headers, listed, intact⟩, _⟩ := heap_invariant sampleArena (fun _ => 0) run
  exact ⟨s, headers, run, listed, intact⟩

end Lists

section Isolation

def Grant.noted (m : Bytes) (g : Grant) : Grant := { g with stored := fun k => some (m (g.pointer + k)) }

def Session.noted (s : Session) : Session := ⟨s.heap, s.live.map (Grant.noted s.heap.mem)⟩

theorem Keeps.noted (keeps : Keeps a s t) : Keeps a s.noted t where
  holds := keeps.holds
  live := by
    rw [Session.noted, List.map_map]
    exact keeps.live
  owned := keeps.owned
  distinct := keeps.distinct
  room := keeps.room
  kept := by
    intro g member _ k value _ stored
    obtain ⟨f, _, rfl⟩ := List.mem_map.mp member
    exact Option.some.inj stored

/-- What a call does to the heap depends on the heap alone. -/
theorem run_heap {call : HeapCall} {q later : Session} (same : s.heap = q.heap) (ran : call.run s = some after)
    (ran' : call.run q = some later) : after.heap = later.heap := by
  cases call with
  | kmalloc _ | kcalloc _ _ =>
    obtain ⟨⟨p, h⟩, done, ends⟩ := Option.bind_eq_some_iff.mp ran
    obtain ⟨⟨p', h'⟩, done', ends'⟩ := Option.bind_eq_some_iff.mp ran'
    rw [same] at done
    cases done.symm.trans done'
    cases ends
    cases ends'
    rfl
  | kfree p =>
    obtain ⟨h, done, ends⟩ := Option.bind_eq_some_iff.mp ran
    obtain ⟨h', done', ends'⟩ := Option.bind_eq_some_iff.mp ran'
    rw [same] at done
    cases done.symm.trans done'
    cases ends
    cases ends'
    rfl
  | store p k value =>
    cases ran
    cases ran'
    rw [same]

/-- A grant outlives every call but a store and its own `kfree`. -/
theorem run_survives {call : HeapCall} (quiet : call.isStore = false) (ran : call.run s = some after) {g : Grant}
    (member : g ∈ s.live) (other : call ≠ .kfree g.pointer) : g ∈ after.live := by
  cases call with
  | kmalloc _ | kcalloc _ _ =>
    obtain ⟨⟨p, h⟩, _, ends⟩ := Option.bind_eq_some_iff.mp ran
    cases ends
    dsimp only
    split
    next => exact member
    next => exact List.mem_cons_of_mem _ member
  | kfree p =>
    obtain ⟨h, _, ends⟩ := Option.bind_eq_some_iff.mp ran
    cases ends
    have apart : g.pointer ≠ p := fun same => other (same ▸ rfl)
    exact List.mem_filter.mpr ⟨member, decide_eq_true apart⟩
  | store p k value => cases quiet

/-- Sessions with the same ledger allow the same calls, stores apart. -/
theorem Keeps.legal {call : HeapCall} {q : Session} (keeps : Keeps a s t) (keeps' : Keeps a q t)
    (quiet : call.isStore = false) (legal : call.Legal s) : call.Legal q := by
  cases call with
  | kmalloc size => trivial
  | kcalloc count size => exact legal
  | kfree p => exact legal.imp_right fun live => keeps'.live_iff.mpr (keeps.live_iff.mp live)
  | store p k value => cases quiet

/-- Giving out or taking back another block leaves the bytes of a grant alone. What was
noted before the call is still there after it. -/
theorem Keeps.frame (keeps : Keeps a s t) {call : HeapCall} (quiet : call.isStore = false)
    (legal : call.Legal s) (ran : call.run s = some after) {g : Grant} (member : g ∈ s.live)
    (other : call ≠ .kfree g.pointer) (small : g.size ≤ 2 ^ 32 - 8) {k : ℕ} (inside : k < g.size) :
    after.heap.mem (g.pointer + k) = s.heap.mem (g.pointer + k) := by
  have noted : g.noted s.heap.mem ∈ s.noted.live := List.mem_map_of_mem member
  obtain ⟨later, ran', keeps'⟩ := keeps.noted.step (keeps.legal keeps.noted quiet legal)
  have survives : g.noted s.heap.mem ∈ later.live := run_survives quiet ran' noted other
  have shared : s.heap = s.noted.heap := rfl
  rw [run_heap shared ran ran']
  exact keeps'.kept (g.noted s.heap.mem) survives small k _ inside rfl

/-- Without the stores the same calls are legal and move the ledger the same way. -/
theorem Keeps.quiet_run {calls : List HeapCall} {q : Session} (keeps : Keeps a s t) (keeps' : Keeps a q t)
    (run : HeapRun s calls after) :
    ∃ quiet, HeapRun q (calls.filter fun call => !call.isStore) quiet ∧ Keeps a quiet (calls.foldl (Ledger.call a) t) := by
  induction run generalizing t q with
  | done => exact ⟨q, .done, keeps'⟩
  | @call s middle after call rest legal ran _ ih =>
    obtain ⟨middle', ran', later⟩ := keeps.step legal
    cases ran.symm.trans ran'
    cases kind : call.isStore with
    | false =>
      have legal' := keeps.legal keeps' kind legal
      obtain ⟨next, done, held⟩ := keeps'.step legal'
      obtain ⟨quiet, rest, last⟩ := ih later held
      refine ⟨quiet, ?_, last⟩
      rw [List.filter_cons_of_pos (by rw [kind]; rfl)]
      exact .call legal' done rest
    | true =>
      have still : t.call a call = t := by
        cases call with
        | store p k value => rfl
        | _ => cases kind
      rw [List.filter_cons_of_neg (by rw [kind]; decide)]
      exact ih later (by rw [still]; exact keeps')

/-- The list of headers is the one of the run without the stores, the bytes of a grant
are those last stored, and no call but its own `kfree` changes them. -/
theorem heap_isolation (a : Arena) (m : Bytes) {calls : List HeapCall} {s : Session}
    (run : HeapRun (Session.start a m) calls s) :
    (∃ quiet headers, HeapRun (Session.start a m) (calls.filter fun call => !call.isStore) quiet ∧
      s.heap.headers = some headers ∧ quiet.heap.headers = some headers ∧
      quiet.live.map (fun g => (g.pointer, g.size)) = s.live.map fun g => (g.pointer, g.size)) ∧
    (∀ g ∈ s.live, g.size ≤ 2 ^ 32 - 8 → ∀ k value, k < g.size → g.stored k = some value →
      s.heap.mem (g.pointer + k) = value) ∧
    ∀ call : HeapCall, call.isStore = false → call.Legal s → ∃ after, call.run s = some after ∧
      ∀ g ∈ s.live, call ≠ .kfree g.pointer → g.size ≤ 2 ^ 32 - 8 → ∀ k, k < g.size →
        after.heap.mem (g.pointer + k) = s.heap.mem (g.pointer + k) := by
  have keeps := (start_keeps a m).run run
  obtain ⟨quiet, ran, keeps'⟩ := (start_keeps a m).quiet_run (start_keeps a m) run
  refine ⟨⟨quiet, _, ran, keeps.holds.headers_eq, keeps'.holds.headers_eq, keeps'.live.trans keeps.live.symm⟩,
    keeps.kept, fun call quiet legal => ?_⟩
  obtain ⟨after, done, _⟩ := keeps.step legal
  exact ⟨after, done, fun g member other small k inside => keeps.frame quiet legal done member other small inside⟩

theorem heap_isolation_of_sample : ∃ s quiet headers, HeapRun (Session.start sampleArena fun _ => 0) sampleCalls s ∧
    HeapRun (Session.start sampleArena fun _ => 0) [.kmalloc 100, .kmalloc 8, .kfree 0x10000c] quiet ∧
    s.heap.headers = some headers ∧ quiet.heap.headers = some headers := by
  obtain ⟨s, run⟩ := sample_run
  obtain ⟨⟨quiet, headers, ran, listed, listed', _⟩, _⟩ := heap_isolation sampleArena (fun _ => 0) run
  exact ⟨s, quiet, headers, run, ran, listed, listed'⟩

end Isolation

section Sizes

variable {m : Bytes} {x : ℕ} {blocks : List Block} {size count : UInt32}

theorem Stored.taken_size (stored : Stored m x blocks) (member : (p, n) ∈ taken 12 x blocks) :
    (blockSize m (p - 12)).toNat = n := by
  induction blocks generalizing x with
  | nil => cases member
  | cons b rest ih =>
    rw [taken] at member
    rcases List.mem_append.mp member with here | later
    · split at here
      next => cases here
      next =>
        cases List.mem_singleton.mp here
        rw [Nat.add_sub_cancel]
        exact stored.blockSize_toNat
    · exact ih stored.2.2.2 later

def KmallocSuffices (h : Heap) (size : UInt32) : Prop :=
  ∀ p after, kmalloc h size = some (p, after) → p ≠ 0 → size.toNat ≤ (blockSize after.mem (p - 12)).toNat

/-- A block that `kcalloc` returns has at least the bytes of the product, all of these
are zero, and outside the block memory is as `kmalloc` left it. -/
def KcallocSuffices (h : Heap) (count size : UInt32) : Prop :=
  ∀ p after, kcalloc h count size = some (p, after) → p ≠ 0 → ∃ given usable,
    kmalloc h (count * size) = some (p, given) ∧ usable = (blockSize given.mem (p - 12)).toNat ∧
      count.toNat * size.toNat ≤ usable ∧ (∀ k, k < count.toNat * size.toNat → after.mem (p + k) = 0) ∧
      ∀ x, x < p ∨ p + usable ≤ x → after.mem x = given.mem x

/-- No block is free, so every request is refused. -/
def Heap.Exhausted (h : Heap) : Prop := ∃ headers, h.headers = some headers ∧ ∀ b ∈ headers, b.free = false

theorem Holds.exhausted_iff (holds : Holds a h l) : h.Exhausted ↔ ∀ b ∈ l.blocks, b.free = false := by
  have flags := @headersOf_forall a.base l.blocks fun _ free => free = false
  rw [← flags]
  constructor
  · rintro ⟨headers, listed, full⟩
    cases listed.symm.trans holds.headers_eq
    exact full
  · exact fun full => ⟨_, holds.headers_eq, full⟩

/-- What `kmalloc` returns is as large as the rounded size, and inside the arena. -/
theorem Holds.kmalloc_size (holds : Holds a h l) {given : Heap} (nonnull : p ≠ 0)
    (done : kmalloc h size = some (p, given)) :
    (alignUp size).toNat ≤ (blockSize given.mem (p - 12)).toNat ∧ (blockSize given.mem (p - 12)).toNat ≤ heapSize := by
  by_cases zero : size = 0
  · rw [kmalloc, if_pos zero] at done
    cases done
    exact absurd rfl nonnull
  cases found : l.acquire 8 (alignUp size).toNat a.base with
  | none =>
    cases done.symm.trans (holds.kmalloc_none zero found)
    exact absurd rfl nonnull
  | some result =>
    obtain ⟨q, layout⟩ := result
    obtain ⟨h', done', holds', _⟩ := holds.kmalloc_some zero found
    cases done.symm.trans done'
    obtain ⟨block, enough, only⟩ := acquire_taken (Layout.acquire_eq_some.mp found)
    have member := (only (p, block)).mpr (.inl rfl)
    have inside := (taken_inside member).2
    have above := (taken_inside member).1
    rw [layout.full] at inside
    rw [holds'.stored.taken_size member]
    exact ⟨enough, by omega⟩

theorem Holds.kmalloc_exhausted (holds : Holds a h l) (full : ∀ b ∈ l.blocks, b.free = false) {given : Heap}
    (done : kmalloc h size = some (p, given)) : p = 0 := by
  by_cases zero : size = 0
  · rw [kmalloc, if_pos zero] at done
    cases done
    rfl
  have none : l.acquire 8 (alignUp size).toNat a.base = none :=
    Layout.acquire_eq_none.mpr (acquire_none.mpr fun b member free => absurd (full b member ▸ free) Bool.false_ne_true)
  cases done.symm.trans (holds.kmalloc_none zero none)
  rfl

/-- A free block that is large enough is a reason to grant. -/
theorem Holds.kmalloc_granted (holds : Holds a h l) (nonzero : size ≠ 0)
    (fits : ∃ b ∈ l.blocks, b.free = true ∧ (alignUp size).toNat ≤ b.size) :
    ∃ p given, kmalloc h size = some (p, given) ∧ p ≠ 0 := by
  obtain ⟨b, member, free, enough⟩ := fits
  cases found : l.acquire 8 (alignUp size).toNat a.base with
  | none => exact absurd (acquire_none.mp (Layout.acquire_eq_none.mp found) b member free) (Nat.not_lt.mpr enough)
  | some result =>
    obtain ⟨p, layout⟩ := result
    obtain ⟨given, done, _, _⟩ := holds.kmalloc_some nonzero found
    obtain ⟨block, _, only⟩ := acquire_taken (Layout.acquire_eq_some.mp found)
    have above := (taken_inside ((only (p, block)).mpr (.inl rfl))).1
    exact ⟨p, given, done, by omega⟩

/-- Rounding a size over `2^32 - 8` up wraps to 0, which any free block satisfies. -/
theorem Holds.kmalloc_wraps (holds : Holds a h l) (large : 2 ^ 32 - 8 < size.toNat) (free : ¬ ∀ b ∈ l.blocks, b.free = false) :
    ∃ p given, kmalloc h size = some (p, given) ∧ p ≠ 0 := by
  have below := size.toNat_lt
  have nonzero : size ≠ 0 := by
    rintro rfl
    exact absurd large (by decide)
  have wanted : (alignUp size).toNat = 0 := by
    rw [alignUp_toNat]
    omega
  simp only [not_forall, Bool.not_eq_false] at free
  obtain ⟨b, member, free⟩ := free
  apply holds.kmalloc_granted nonzero
  exact ⟨b, member, free, by rw [wanted]; exact Nat.zero_le _⟩

theorem Holds.kmalloc_returns (holds : Holds a h l) (size : UInt32) : ∃ p given, kmalloc h size = some (p, given) := by
  by_cases zero : size = 0
  · exact ⟨0, h, by rw [kmalloc, if_pos zero]⟩
  cases found : l.acquire 8 (alignUp size).toNat a.base with
  | none => exact ⟨0, h, holds.kmalloc_none zero found⟩
  | some result =>
    obtain ⟨given, done, _⟩ := holds.kmalloc_some zero found
    exact ⟨result.1, given, done⟩

theorem Holds.kmalloc_suffices_iff (holds : Holds a h l) (size : UInt32) :
    KmallocSuffices h size ↔ size.toNat ≤ 2 ^ 32 - 8 ∨ h.Exhausted := by
  rw [holds.exhausted_iff]
  constructor
  · intro promised
    by_contra fails
    obtain ⟨large, free⟩ := not_or.mp fails
    obtain ⟨p, given, done, nonnull⟩ := holds.kmalloc_wraps (Nat.not_le.mp large) free
    have claimed := promised p given done nonnull
    have actual := (holds.kmalloc_size nonnull done).2
    simp only [heapSize] at actual
    omega
  · rintro (small | full) p given done nonnull
    · exact (le_alignUp small).trans (holds.kmalloc_size nonnull done).1
    · exact absurd (holds.kmalloc_exhausted full done) nonnull

theorem Holds.kcalloc_suffices_iff (holds : Holds a h l) (count size : UInt32) :
    KcallocSuffices h count size ↔
      count.toNat * size.toNat ≤ 2 ^ 32 - 8 ∨ 2 ^ 32 ≤ count.toNat * size.toNat ∨ h.Exhausted := by
  rw [holds.exhausted_iff]
  by_cases caught : 2 ^ 32 ≤ count.toNat * size.toNat
  · refine ⟨fun _ => .inr (.inl caught), fun _ p after done nonnull => ?_⟩
    cases done.symm.trans (kcalloc_caught caught)
    exact absurd rfl nonnull
  obtain ⟨q, given, asked⟩ := holds.kmalloc_returns (count * size)
  obtain ⟨total, called⟩ := kcalloc_fits (Nat.not_le.mp caught) asked
  constructor
  · intro promised
    by_contra fails
    simp only [not_or] at fails
    obtain ⟨large, _, free⟩ := fails
    have wraps : 2 ^ 32 - 8 < (count * size).toNat := by omega
    obtain ⟨p, given', done, nonnull⟩ := holds.kmalloc_wraps wraps free
    cases asked.symm.trans done
    obtain ⟨given', usable, done', rfl, claimed, _⟩ := promised _ _ called nonnull
    cases done.symm.trans done'
    have actual := (holds.kmalloc_size nonnull done).2
    simp only [heapSize] at actual
    omega
  · intro condition p after cleared nonnull
    cases called.symm.trans cleared
    have small : count.toNat * size.toNat ≤ 2 ^ 32 - 8 := by
      rcases condition with small | large | full
      · exact small
      · exact absurd large caught
      · exact absurd (holds.kmalloc_exhausted full asked) nonnull
    have enough : count.toNat * size.toNat ≤ (blockSize given.mem (q - 12)).toNat := by
      rw [← total]
      exact (le_alignUp (by rw [total]; exact small)).trans (holds.kmalloc_size nonnull asked).1
    rw [if_neg nonnull]
    refine ⟨given, _, asked, rfl, enough, fun k inside => ?_, fun x outside => ?_⟩
    · exact if_pos (by rw [total]; omega)
    · exact if_neg (by rw [total]; omega)

/-- Exactly the sizes whose rounding to 8 wraps break the promise of `heap.h`. -/
theorem granted_size_iff (a : Arena) (m : Bytes) {calls : List HeapCall} {s : Session}
    (run : HeapRun (Session.start a m) calls s) :
    (∀ size, KmallocSuffices s.heap size ↔ size.toNat ≤ 2 ^ 32 - 8 ∨ s.heap.Exhausted) ∧
      ∀ count size, KcallocSuffices s.heap count size ↔
        count.toNat * size.toNat ≤ 2 ^ 32 - 8 ∨ 2 ^ 32 ≤ count.toNat * size.toNat ∨ s.heap.Exhausted := by
  have holds := ((start_keeps a m).run run).holds
  exact ⟨holds.kmalloc_suffices_iff, holds.kcalloc_suffices_iff⟩

theorem granted_size_of_sample : ∃ s, HeapRun (Session.start sampleArena fun _ => 0) sampleCalls s ∧
    KmallocSuffices s.heap 4096 ∧ KcallocSuffices s.heap 0x10000 0x10000 := by
  obtain ⟨s, run⟩ := sample_run
  have sizes := granted_size_iff sampleArena (fun _ => 0) run
  exact ⟨s, run, (sizes.1 4096).mpr (.inl (by decide)), (sizes.2 0x10000 0x10000).mpr (.inr (.inl (by decide)))⟩

theorem largest_request_granted : ¬ ∀ (a : Arena) (m : Bytes) (calls : List HeapCall) (s : Session),
    HeapRun (Session.start a m) calls s →
      (∀ size, KmallocSuffices s.heap size) ∧ ∀ count size, KcallocSuffices s.heap count size := by
  intro all
  have promised := (all sampleArena (fun _ => 0) [] _ .done).1 0xFFFFFFFF
  have holds := heapInit_holds sampleArena fun _ => 0
  rcases (holds.kmalloc_suffices_iff _).mp promised with small | full
  · exact absurd small (by decide)
  · exact absurd (holds.exhausted_iff.mp full _ List.mem_cons_self) (by decide)

end Sizes

end Seaweed
