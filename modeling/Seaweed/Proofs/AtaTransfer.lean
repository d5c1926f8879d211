import Seaweed.AtaDriver
import Seaweed.Library.Polling

/-! The loops of `ata.c` on the stream of status values that the drive will return. What a
transfer does is a relation between that stream, the accesses and the words moved. -/

namespace Seaweed
open Library

def Busy (status : UInt8) : Prop := status &&& statusBsy ≠ 0

def Faulted (status : UInt8) : Prop := status &&& (statusErr ||| statusDf) ≠ 0

def Requests (status : UInt8) : Prop := status &&& statusDrq ≠ 0

/-- A reading that `wait_ready` passes over. -/
def Skipped (status : UInt8) : Prop := Busy status ∨ ¬ Faulted status ∧ ¬ Requests status

def Ready (status : UInt8) : Prop := ¬ Busy status ∧ ¬ Faulted status ∧ Requests status

/-- The reading at which `wait_not_busy` finds the drive idle. -/
def TurnsIdle (s : Stream' UInt8) (k : ℕ) : Prop := k < waitLimit ∧ (∀ j, j < k → Busy (s.get j)) ∧ ¬ Busy (s.get k)

/-- The reading at which `wait_ready` finds the drive ready for a block. -/
def TurnsReady (s : Stream' UInt8) (k : ℕ) : Prop := k < waitLimit ∧ (∀ j, j < k → Skipped (s.get j)) ∧ Ready (s.get k)

def Ports.status (p : Ports) : Stream' UInt8 := p.bytes ataStatus

variable {p p' p'' : Ports} {s t u v : Stream' UInt8} {n k j : ℕ} {events later : List PortEvent} {status : UInt8}

/-- A part that lacks an element stands whole before it. -/
theorem split_after {α : Type*} {first second before after : List α} {x : α}
    (split : first ++ second = before ++ x :: after) (lacks : x ∉ first) : ∃ c, before = first ++ c ∧ second = c ++ x :: after := by
  rcases List.append_eq_append_iff.mp split with found | ⟨rest, whole, left⟩
  · exact found
  · cases rest with
    | nil => exact ⟨[], by rw [whole, List.append_nil, List.append_nil], left.symm⟩
    | cons y rest =>
      obtain ⟨rfl, -⟩ := List.cons.inj left
      exact absurd (whole ▸ List.mem_append_right before List.mem_cons_self) lacks

section Readings

/-- The accesses made, and the status values that are left. -/
structure Did (p : Ports) (events : List PortEvent) (u : Stream' UInt8) (p' : Ports) : Prop where
  trace : p'.trace = p.trace ++ events
  status : p'.status = u

theorem Did.nothing : Did p [] p.status p := ⟨(List.append_nil p.trace).symm, rfl⟩

theorem Did.next (first : Did p events u p') (second : Did p' later v p'') : Did p (events ++ later) v p'' where
  trace := by rw [second.trace, first.trace, List.append_assoc]
  status := second.status

theorem outb_did (port : UInt16) (value : UInt8) : Did p [.outb port value] p.status (outb p port value) := ⟨rfl, rfl⟩

def readings (s : Stream' UInt8) (k : ℕ) : List PortEvent := (s.take k).map (PortEvent.inb ataStatus)

/-- After the next `k` readings of the status port. -/
def Ports.polled (p : Ports) (k : ℕ) : Ports := (fun p => (inb p ataStatus).2)^[k] p

theorem inb_did (p : Ports) : Did p [.inb ataStatus p.status.head] p.status.tail (inb p ataStatus).2 :=
  ⟨rfl, @Function.update_self UInt16 (fun _ => Stream' UInt8) _ ataStatus p.status.tail p.bytes⟩

theorem polled_did (p : Ports) (k : ℕ) : Did p (readings p.status k) (p.status.drop k) (p.polled k) := by
  induction k with
  | zero => exact Did.nothing
  | succ k ih =>
    have one := inb_did (p.polled k)
    rw [ih.status, Stream'.head_drop, Stream'.tail_drop'] at one
    have more := ih.next one
    rw [Ports.polled, Function.iterate_succ_apply', readings, Stream'.take_succ', List.map_append]
    exact more

theorem mem_readings {event : PortEvent} : event ∈ readings s k ↔ ∃ j, j < k ∧ event = .inb ataStatus (s.get j) := by
  constructor
  · intro inside
    obtain ⟨status, among, rfl⟩ := List.mem_map.mp inside
    obtain ⟨j, low, found⟩ := List.mem_iff_getElem.mp among
    rw [Stream'.take_get] at found
    rw [Stream'.length_take] at low
    exact ⟨j, low, by rw [found]⟩
  · rintro ⟨j, low, rfl⟩
    exact List.mem_map_of_mem (List.mem_of_getElem? (Stream'.getElem?_take low))

end Readings

section Waits

def idleAnswer (status : UInt8) : Option Int := if status &&& statusBsy = 0 then some 0 else none

def readyAnswer (status : UInt8) : Option Int :=
  if status &&& statusBsy ≠ 0 then none
  else if status &&& (statusErr ||| statusDf) ≠ 0 then some (-1)
  else if status &&& statusDrq ≠ 0 then some 0
  else none

theorem idleAnswer_none : idleAnswer status = none ↔ Busy status := by
  unfold idleAnswer Busy
  split <;> simp_all

theorem idleAnswer_some {value : Int} : idleAnswer status = some value ↔ ¬ Busy status ∧ value = 0 := by
  unfold idleAnswer Busy
  split <;> simp_all [eq_comm]

theorem readyAnswer_none : readyAnswer status = none ↔ Skipped status := by
  unfold readyAnswer Skipped Busy Faulted Requests
  split_ifs <;> simp_all

theorem readyAnswer_zero : readyAnswer status = some 0 ↔ Ready status := by
  unfold readyAnswer Ready Busy Faulted Requests
  split_ifs <;> simp_all

/-- `wait_not_busy` stops at the first reading without BSY, or after all of them. -/
theorem waitNotBusy_cases (p : Ports) :
    (∃ k, TurnsIdle p.status k ∧ waitNotBusy p = (0, p.polled (k + 1))) ∨
    (∀ j, j < waitLimit → Busy (p.status.get j)) ∧ ∃ n, n = waitLimit ∧ waitNotBusy p = (-2, p.polled n) := by
  have ends : ∀ n (p : Ports) value, idleAnswer p.status.head = some value →
      waitNotBusyFrom (n + 1) p = (value, (inb p ataStatus).2) := by
    intro n p value found
    obtain ⟨idle, rfl⟩ := idleAnswer_some.mp found
    exact if_pos (not_not.mp idle)
  have goes : ∀ n (p : Ports), idleAnswer p.status.head = none →
      waitNotBusyFrom (n + 1) p = waitNotBusyFrom n (inb p ataStatus).2 :=
    fun n p passed => if_neg (idleAnswer_none.mp passed)
  rcases polling_cases Ports.status (fun p => (inb p ataStatus).2) Prod.mk (fun p => (-2, p)) waitNotBusyFrom
    (fun p => (inb_did p).status) (fun _ => rfl) ends goes waitLimit p with
    ⟨k, value, low, found, result⟩ | ⟨passed, result⟩
  · obtain ⟨idle, rfl⟩ := idleAnswer_some.mp found.found
    exact .inl ⟨k, ⟨low, fun j before => idleAnswer_none.mp (found.passed j before), idle⟩, result⟩
  · exact .inr ⟨fun j low => idleAnswer_none.mp (passed j low), waitLimit, rfl, result⟩

theorem TurnsIdle.first (idle : ¬ Busy (s.get 0)) : TurnsIdle s 0 :=
  ⟨Nat.succ_pos _, fun j low => absurd low (Nat.not_lt_zero j), idle⟩

theorem TurnsReady.first (ready : Ready (s.get 0)) : TurnsReady s 0 :=
  ⟨Nat.succ_pos _, fun j low => absurd low (Nat.not_lt_zero j), ready⟩

theorem TurnsIdle.answered (idle : TurnsIdle s k) : Answered idleAnswer s k 0 where
  passed := fun j before => idleAnswer_none.mpr (idle.2.1 j before)
  found := idleAnswer_some.mpr ⟨idle.2.2, rfl⟩

theorem TurnsReady.answered (ready : TurnsReady s k) : Answered readyAnswer s k 0 where
  passed := fun j before => readyAnswer_none.mpr (ready.2.1 j before)
  found := readyAnswer_zero.mpr ready.2.2

theorem TurnsIdle.unique (here : TurnsIdle s k) (there : TurnsIdle s j) : k = j :=
  (here.answered.unique there.answered).1

theorem TurnsReady.unique (here : TurnsReady s k) (there : TurnsReady s j) : k = j :=
  (here.answered.unique there.answered).1

private theorem waitReadyFrom_succ (n : ℕ) (p : Ports) :
    waitReadyFrom (n + 1) p =
      match readyAnswer p.status.head with
      | some value => (value, (inb p ataStatus).2)
      | none => waitReadyFrom n (inb p ataStatus).2 := by
  change (if p.status.head &&& statusBsy ≠ 0 then waitReadyFrom n (inb p ataStatus).2
    else if p.status.head &&& (statusErr ||| statusDf) ≠ 0 then (-1, (inb p ataStatus).2)
    else if p.status.head &&& statusDrq ≠ 0 then (0, (inb p ataStatus).2)
    else waitReadyFrom n (inb p ataStatus).2) = _
  unfold readyAnswer
  split_ifs <;> rfl

/-- `wait_ready` stops at the first reading that asks for a block; its other results say
that there is none. -/
theorem waitReady_cases (p : Ports) :
    (∃ k, TurnsReady p.status k ∧ waitReady p = (0, p.polled (k + 1))) ∨
    (∀ k, ¬ TurnsReady p.status k) ∧ ∃ result k, result ≠ 0 ∧ waitReady p = (result, p.polled k) := by
  have ends : ∀ n (p : Ports) value, readyAnswer p.status.head = some value →
      waitReadyFrom (n + 1) p = (value, (inb p ataStatus).2) := by
    intro n p value found
    rw [waitReadyFrom_succ, found]
  have goes : ∀ n (p : Ports), readyAnswer p.status.head = none →
      waitReadyFrom (n + 1) p = waitReadyFrom n (inb p ataStatus).2 := by
    intro n p passed
    rw [waitReadyFrom_succ, passed]
  rcases polling_cases Ports.status (fun p => (inb p ataStatus).2) Prod.mk (fun p => (-2, p)) waitReadyFrom
    (fun p => (inb_did p).status) (fun _ => rfl) ends goes waitLimit p with
    ⟨k, value, low, found, result⟩ | ⟨passed, result⟩
  · by_cases zero : value = 0
    · subst zero
      exact .inl ⟨k, ⟨low, fun j before => readyAnswer_none.mp (found.passed j before), readyAnswer_zero.mp found.found⟩, result⟩
    · exact .inr ⟨fun j ready => zero (found.unique ready.answered).2, value, k + 1, zero, result⟩
  · refine .inr ⟨fun j ready => ?_, -2, waitLimit, by decide, result⟩
    have answer := ready.answered.found
    rw [passed j ready.1] at answer
    cases answer

end Waits

section Words

variable {m m' m'' : Bytes} {a : ℕ} {word : UInt16} {words others : List UInt16}

/-- The words stand in the buffer from `a` on, low byte first, and the rest of it is kept. -/
structure Filled (a : ℕ) (words : List UInt16) (m m' : Bytes) : Prop where
  low : ∀ (i : ℕ) (word : UInt16), words[i]? = some word → m' (a + 2 * i) = word.toUInt8
  high : ∀ (i : ℕ) (word : UInt16), words[i]? = some word → m' (a + 2 * i + 1) = (word >>> 8).toUInt8
  kept : ∀ x, x < a ∨ a + 2 * words.length ≤ x → m' x = m x

/-- The words are those of the buffer from `a` on. -/
def Sent (m : Bytes) (a : ℕ) (words : List UInt16) : Prop := ∀ (i : ℕ) (word : UInt16), words[i]? = some word → word = halfAt m (a + 2 * i)

theorem Filled.nothing : Filled a [] m m where
  low := fun i word found => by cases found
  high := fun i word found => by cases found
  kept := fun x apart => rfl

private theorem getElem?_one {i : ℕ} {other : UInt16} (found : [word][i]? = some other) : i = 0 ∧ word = other := by
  rw [List.getElem?_singleton] at found
  split at found
  next first => exact ⟨first, Option.some.inj found⟩
  next => cases found

theorem Filled.one : Filled a [word] m (storeHalf m a word) where
  low := by
    intro i other found
    obtain ⟨rfl, rfl⟩ := getElem?_one found
    exact (Function.update_of_ne (by omega) ..).trans (Function.update_self ..)
  high := by
    intro i other found
    obtain ⟨rfl, rfl⟩ := getElem?_one found
    exact Function.update_self ..
  kept := by
    intro x apart
    rw [List.length_singleton] at apart
    exact (Function.update_of_ne (by omega) ..).trans (Function.update_of_ne (by omega) ..)

theorem Filled.append {b : ℕ} (first : Filled a words m m') (second : Filled b others m' m'')
    (joined : b = a + 2 * words.length) : Filled a (words ++ others) m m'' := by
  subst joined
  have place : ∀ (i : ℕ) (word : UInt16), (words ++ others)[i]? = some word →
      words[i]? = some word ∧ i < words.length ∨ ∃ j, i = words.length + j ∧ others[j]? = some word := by
    intro i word found
    rcases Nat.lt_or_ge i words.length with before | after
    · rw [List.getElem?_append_left before] at found
      exact .inl ⟨found, before⟩
    · rw [List.getElem?_append_right after] at found
      exact .inr ⟨i - words.length, by omega, found⟩
  refine ⟨?_, ?_, ?_⟩
  · intro i word found
    rcases place i word found with ⟨here, inside⟩ | ⟨j, rfl, there⟩
    · rw [second.kept _ (.inl (by omega)), first.low i word here]
    · rw [← second.low j word there, Nat.mul_add, Nat.add_assoc]
  · intro i word found
    rcases place i word found with ⟨here, inside⟩ | ⟨j, rfl, there⟩
    · rw [second.kept _ (.inl (by omega)), first.high i word here]
    · rw [← second.high j word there, Nat.mul_add, ← Nat.add_assoc]
  · intro x apart
    rw [List.length_append] at apart
    rw [second.kept x (by omega), first.kept x (by omega)]

theorem Sent.nothing : Sent m a [] := fun i word found => by cases found

theorem Sent.one : Sent m a [halfAt m a] := by
  intro i word found
  obtain ⟨rfl, rfl⟩ := getElem?_one found
  rfl

theorem Sent.append {b : ℕ} (first : Sent m a words) (second : Sent m b others) (joined : b = a + 2 * words.length) :
    Sent m a (words ++ others) := by
  intro i word found
  rcases Nat.lt_or_ge i words.length with before | after
  · rw [List.getElem?_append_left before] at found
    exact first i word found
  · rw [List.getElem?_append_right after] at found
    rw [second _ word found, joined]
    congr 1
    omega

theorem readWords_moves (left a : ℕ) (m : Bytes) (p : Ports) :
    ∃ words, words.length = left ∧ Did p (words.map (PortEvent.inw ataData)) p.status (readWords left a m p).2 ∧
      Filled a words m (readWords left a m p).1 := by
  induction left generalizing a m p with
  | zero => exact ⟨[], rfl, .nothing, .nothing⟩
  | succ left ih =>
    obtain ⟨words, length, did, filled⟩ := ih (a + 2) (storeHalf m a (inw p ataData).1) (inw p ataData).2
    have one : Did p [.inw ataData (inw p ataData).1] p.status (inw p ataData).2 := ⟨rfl, rfl⟩
    exact ⟨(inw p ataData).1 :: words, by rw [List.length_cons, length], one.next did, Filled.one.append filled rfl⟩

theorem writeWords_moves (m : Bytes) (left a : ℕ) (p : Ports) :
    ∃ words, words.length = left ∧ Did p (words.map (PortEvent.outw ataData)) p.status (writeWords m left a p) ∧
      Sent m a words := by
  induction left generalizing a p with
  | zero => exact ⟨[], rfl, .nothing, .nothing⟩
  | succ left ih =>
    obtain ⟨words, length, did, sent⟩ := ih (a + 2) (outw p ataData (halfAt m a))
    have one : Did p [.outw ataData (halfAt m a)] p.status (outw p ataData (halfAt m a)) := ⟨rfl, rfl⟩
    exact ⟨halfAt m a :: words, by rw [List.length_cons, length], one.next did, Sent.one.append sent rfl⟩

end Words

section Sectors

/-- The loop over `n` sectors while the drive returns the status values `s`: what it
accesses, the words it moves, its result and the status values that are left. -/
inductive Transfer (move : UInt16 → PortEvent) :
    ℕ → Stream' UInt8 → List PortEvent → List UInt16 → Int → Stream' UInt8 → Prop where
  | done {s : Stream' UInt8} : Transfer move 0 s [] [] 0 s
  | refused {n : ℕ} {s : Stream' UInt8} {result : Int} (k : ℕ) (never : ∀ j, ¬ TurnsReady s j) (failed : result ≠ 0) :
      Transfer move (n + 1) s (readings s k) [] result (s.drop k)
  | sector {n k : ℕ} {s u : Stream' UInt8} {events : List PortEvent} {words others : List UInt16} {result : Int}
      (pauses : List UInt8) (ready : TurnsReady s k) (whole : words.length = sectorWords)
      (rest : Transfer move n (s.drop (k + 1)) events others result u) :
      Transfer move (n + 1) s (readings s (k + 1) ++ (words.map move ++ (pauses.map (PortEvent.inb ataControl) ++ events)))
        (words ++ others) result u

theorem delay400ns_did (p : Ports) :
    ∃ pauses : List UInt8, Did p (pauses.map (PortEvent.inb ataControl)) p.status (delay400ns p) := by
  have one : ∀ p : Ports, ∃ value, Did p [.inb ataControl value] p.status (inb p ataControl).2 := fun p =>
    ⟨_, rfl, @Function.update_of_ne UInt16 (fun _ => Stream' UInt8) _ ataStatus ataControl (by decide) (p.bytes ataControl).tail p.bytes⟩
  obtain ⟨first, did⟩ := one p
  obtain ⟨second, did2⟩ := one (inb p ataControl).2
  obtain ⟨third, did3⟩ := one (inb (inb p ataControl).2 ataControl).2
  obtain ⟨fourth, did4⟩ := one (inb (inb (inb p ataControl).2 ataControl).2 ataControl).2
  rw [did.status] at did2
  rw [did2.status] at did3
  rw [did3.status] at did4
  exact ⟨[first, second, third, fourth], ((did.next did2).next did3).next did4⟩

/-- The 8-bit counter of the loops goes through the sectors that are left and stops. -/
private theorem counts_down {count sector : UInt8} (left : sector.toNat + n = count.toNat) :
    (n = 0 → ¬ sector < count) ∧ ∀ k, n = k + 1 → sector < count ∧ (sector + 1).toNat + k = count.toNat := by
  refine ⟨fun none more => ?_, fun k some => ?_⟩
  · have counts := sector_counts more
    omega
  · have more : sector < count := UInt8.lt_iff_toNat_lt.mpr (by omega)
    have counts := sector_counts more
    exact ⟨more, by omega⟩

theorem readSectors_transfer {count sector : UInt8} (left : sector.toNat + n = count.toNat) (a : ℕ) (m : Bytes) (p : Ports) :
    ∃ events words, Did p events (readSectors count sector a m p).2.2.status (readSectors count sector a m p).2.2 ∧
      Transfer (PortEvent.inw ataData) n p.status events words (readSectors count sector a m p).1
        (readSectors count sector a m p).2.2.status ∧
      Filled a words m (readSectors count sector a m p).2.1 := by
  induction n generalizing sector a m p with
  | zero =>
    rw [readSectors, if_neg ((counts_down left).1 rfl)]
    exact ⟨[], [], .nothing, .done, .nothing⟩
  | succ n ih =>
    obtain ⟨more, next⟩ := (counts_down left).2 n rfl
    rcases waitReady_cases p with ⟨k, ready, wait⟩ | ⟨never, result, k, failed, wait⟩
    · have run : readSectors count sector a m p =
          readSectors count (sector + 1) (a + 2 * sectorWords) (readWords sectorWords a m (p.polled (k + 1))).1
            (delay400ns (readWords sectorWords a m (p.polled (k + 1))).2) := by
        rw [readSectors, if_pos more, wait]
        exact if_neg (not_not_intro rfl)
      rw [run]
      have did := polled_did p (k + 1)
      obtain ⟨words, whole, moved, filled⟩ := readWords_moves sectorWords a m (p.polled (k + 1))
      obtain ⟨pauses, paused⟩ := delay400ns_did (readWords sectorWords a m (p.polled (k + 1))).2
      obtain ⟨events, others, later, rest, filled'⟩ := ih next (a + 2 * sectorWords)
        (readWords sectorWords a m (p.polled (k + 1))).1 (delay400ns (readWords sectorWords a m (p.polled (k + 1))).2)
      rw [paused.status, moved.status, did.status] at rest
      exact ⟨_, _, did.next (moved.next (paused.next later)), .sector pauses ready whole rest, filled.append filled' (by rw [whole])⟩
    · have run : readSectors count sector a m p = (result, m, p.polled k) := by
        rw [readSectors, if_pos more, wait]
        exact if_pos failed
      have did := polled_did p k
      rw [run, did.status]
      exact ⟨_, _, did, .refused k never failed, .nothing⟩

theorem writeSectors_transfer {count sector : UInt8} (left : sector.toNat + n = count.toNat) (m : Bytes) (a : ℕ) (p : Ports) :
    ∃ events words, Did p events (writeSectors count sector m a p).2.status (writeSectors count sector m a p).2 ∧
      Transfer (PortEvent.outw ataData) n p.status events words (writeSectors count sector m a p).1
        (writeSectors count sector m a p).2.status ∧
      Sent m a words := by
  induction n generalizing sector a p with
  | zero =>
    rw [writeSectors, if_neg ((counts_down left).1 rfl)]
    exact ⟨[], [], .nothing, .done, .nothing⟩
  | succ n ih =>
    obtain ⟨more, next⟩ := (counts_down left).2 n rfl
    rcases waitReady_cases p with ⟨k, ready, wait⟩ | ⟨never, result, k, failed, wait⟩
    · have run : writeSectors count sector m a p =
          writeSectors count (sector + 1) m (a + 2 * sectorWords)
            (delay400ns (writeWords m sectorWords a (p.polled (k + 1)))) := by
        rw [writeSectors, if_pos more, wait]
        exact if_neg (not_not_intro rfl)
      rw [run]
      have did := polled_did p (k + 1)
      obtain ⟨words, whole, moved, sent⟩ := writeWords_moves m sectorWords a (p.polled (k + 1))
      obtain ⟨pauses, paused⟩ := delay400ns_did (writeWords m sectorWords a (p.polled (k + 1)))
      obtain ⟨events, others, later, rest, sent'⟩ := ih next (a + 2 * sectorWords)
        (delay400ns (writeWords m sectorWords a (p.polled (k + 1))))
      rw [paused.status, moved.status, did.status] at rest
      exact ⟨_, _, did.next (moved.next (paused.next later)), .sector pauses ready whole rest, sent.append sent' (by rw [whole])⟩
    · have run : writeSectors count sector m a p = (result, p.polled k) := by
        rw [writeSectors, if_pos more, wait]
        exact if_pos failed
      have did := polled_did p k
      rw [run, did.status]
      exact ⟨_, _, did, .refused k never failed, .nothing⟩

/-- Whole blocks are moved, all of them exactly when the loop answers 0. -/
theorem Transfer.blocks_moved {move : UInt16 → PortEvent} {words : List UInt16} {result : Int}
    (transfer : Transfer move n s events words result u) :
    ∃ b, b ≤ n ∧ words.length = sectorWords * b ∧ (result = 0 ↔ b = n) := by
  induction transfer with
  | done => exact ⟨0, Nat.le_refl 0, rfl, by simp⟩
  | @refused n _ _ _ never failed => exact ⟨0, Nat.zero_le _, rfl, by simp [failed]⟩
  | sector pauses ready whole rest ih =>
    obtain ⟨b, low, length, done⟩ := ih
    refine ⟨b + 1, Nat.succ_le_succ low, ?_, done.trans Nat.succ_inj.symm⟩
    rw [List.length_append, whole, length, Nat.mul_succ, Nat.add_comm]

/-- Nothing is accessed but the status port, the alternate one and the words moved. -/
theorem Transfer.accesses {move : UInt16 → PortEvent} {words : List UInt16} {result : Int} {event : PortEvent}
    (transfer : Transfer move n s events words result u) (among : event ∈ events) :
    (∃ status, event = .inb ataStatus status) ∨ (∃ value, event = .inb ataControl value) ∨ ∃ word, event = move word := by
  have polled : ∀ {s : Stream' UInt8} {k}, event ∈ readings s k → ∃ status, event = .inb ataStatus status := by
    intro s k inside
    obtain ⟨j, low, rfl⟩ := mem_readings.mp inside
    exact ⟨_, rfl⟩
  induction transfer with
  | done => cases among
  | refused k never failed => exact .inl (polled among)
  | sector pauses ready whole rest ih =>
    simp only [List.mem_append, List.mem_map] at among
    rcases among with reading | ⟨word, _, rfl⟩ | ⟨value, _, rfl⟩ | later
    · exact .inl (polled reading)
    · exact .inr (.inr ⟨word, rfl⟩)
    · exact .inr (.inl ⟨value, rfl⟩)
    · exact ih later

end Sectors

end Seaweed
