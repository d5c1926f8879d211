import Seaweed.Proofs.AtaCommands

/-! What a write reported as done says about the drive. The result of the wait after FLUSH
is dropped, so the drive may have failed or not answered at all: the exact condition on
the status values, for one call and for all the sectors of `fish_save`. -/

namespace Seaweed
open Library

variable {d : AtaDriver} {lba : UInt32} {count : UInt8} {buffer : Bytes} {s t u v : Stream' UInt8} {n j k : ℕ}
  {events : List PortEvent} {words : List UInt16} {result : Int} {event : PortEvent} {status : UInt8}

/-- No status value read after the first data word was sent has BSY clear and ERR or DF set. -/
def Unfaulted (events : List PortEvent) : Prop :=
  ∀ before word after, events = before ++ .outw ataData word :: after →
    ∀ status, .inb ataStatus status ∈ after → Busy status ∨ ¬ Faulted status

/-- The wait after FLUSH saw the drive idle. -/
def FlushAnswered (events : List PortEvent) : Prop :=
  ∀ before after, events = before ++ .outb ataCommand cmdFlush :: after →
    ∃ status, .inb ataStatus status ∈ after ∧ ¬ Busy status

/-- A write reported as done was accepted by the drive. -/
def Accepted (result : Int) (events : List PortEvent) : Prop := result = 0 → Unfaulted events ∧ FlushAnswered events

/-- The drive asks for `n` blocks, and `u` is what it answers after them. -/
inductive Asks : ℕ → Stream' UInt8 → Stream' UInt8 → Prop where
  | done {s : Stream' UInt8} : Asks 0 s s
  | block {n k : ℕ} {s u : Stream' UInt8} (ready : TurnsReady s k) (rest : Asks n (s.drop (k + 1)) u) : Asks (n + 1) s u

/-- The drive turns idle and asks for all the blocks; `u` is what it answers from FLUSH on. -/
def Takes (count : ℕ) (s u : Stream' UInt8) : Prop := ∃ k, TurnsIdle s k ∧ Asks count (s.drop (k + 1)) u

/-- The first answer without BSY, if there is one in time, reports no error. -/
def FlushQuiet (u : Stream' UInt8) : Prop := ∀ k, TurnsIdle u k → ¬ Faulted (u.get k)

/-- There is an answer without BSY in time, and it reports no error. -/
def FlushClean (u : Stream' UInt8) : Prop := ∃ k, TurnsIdle u k ∧ ¬ Faulted (u.get k)

section Answers

theorem Asks.unique (here : Asks n s u) (there : Asks n s v) : u = v := by
  induction here with
  | done =>
    cases there
    rfl
  | block ready rest ih =>
    cases there with
    | block ready' rest' =>
      cases ready.unique ready'
      exact ih rest'

theorem Takes.unique (here : Takes n s u) (there : Takes n s v) : u = v := by
  obtain ⟨k, idle, asks⟩ := here
  obtain ⟨j, idle', asks'⟩ := there
  cases idle.unique idle'
  exact asks.unique asks'

theorem Waited.of_idle (waited : Waited u j) (idle : TurnsIdle u k) : j = k + 1 := by
  rcases waited with ⟨i, idle', rfl⟩ | ⟨busy, -⟩
  · rw [idle'.unique idle]
  · exact absurd (busy k idle.1) idle.2.2

/-- A value read by the wait that has BSY clear is the one that ends it. -/
theorem Waited.idle_of (waited : Waited u j) (low : k < j) (idle : ¬ Busy (u.get k)) : TurnsIdle u k := by
  rcases waited with ⟨i, idle', rfl⟩ | ⟨busy, rfl⟩
  · rcases Nat.lt_or_eq_of_le (Nat.le_of_lt_succ low) with before | rfl
    · exact absurd (idle'.2.1 k before) idle
    · exact idle'
  · exact absurd (busy k low) idle

theorem Waited.unique (here : Waited u j) (there : Waited u k) : j = k := by
  rcases here with ⟨i, idle, rfl⟩ | ⟨busy, limit⟩
  · exact (there.of_idle idle).symm
  · rcases there with ⟨i, idle, rfl⟩ | ⟨-, limit'⟩
    · exact absurd (busy i idle.1) idle.2.2
    · rw [limit, limit']

theorem flushClean_iff : FlushClean u ↔ FlushQuiet u ∧ ∃ k, TurnsIdle u k := by
  constructor
  · rintro ⟨k, idle, clear⟩
    refine ⟨fun j idle' => ?_, k, idle⟩
    rw [idle'.unique idle]
    exact clear
  · rintro ⟨quiet, k, idle⟩
    exact ⟨k, idle, quiet k idle⟩

theorem Transfer.asks {move : UInt16 → PortEvent} (transfer : Transfer move n s events words result u) (done : result = 0) :
    Asks n s u := by
  induction transfer with
  | done => exact .done
  | refused k never failed => exact absurd done failed
  | sector pauses ready whole rest ih => exact .block ready (ih done)

theorem Transfer.not_asks {move : UInt16 → PortEvent} (transfer : Transfer move n s events words result u) (failed : result ≠ 0) :
    ¬ Asks n s v := by
  induction transfer with
  | done => exact absurd rfl failed
  | refused k never bad =>
    rintro (_ | ⟨ready, rest⟩)
    exact never _ ready
  | sector pauses ready whole rest ih =>
    rintro (_ | ⟨ready', rest'⟩)
    cases ready.unique ready'
    exact ih failed rest'

end Answers

section Writing

theorem Transfer.some_word {move : UInt16 → PortEvent} (transfer : Transfer move n s events words 0 u) (more : n ≠ 0) :
    ∃ word, move word ∈ events := by
  cases transfer with
  | done => exact absurd rfl more
  | refused k never failed => exact absurd rfl failed
  | @sector n k s u events words others _ pauses ready whole rest =>
    cases words with
    | nil => cases whole
    | cons word words =>
      refine ⟨word, List.mem_append_right _ (List.mem_append_left _ ?_)⟩
      exact List.mem_map_of_mem List.mem_cons_self

/-- The readings of a transfer that succeeds report no error. -/
theorem Transfer.clean (transfer : Transfer (PortEvent.outw ataData) n s events words result u) (done : result = 0)
    (among : .inb ataStatus status ∈ events) : Busy status ∨ ¬ Faulted status := by
  induction transfer with
  | done => cases among
  | refused k never failed => exact absurd done failed
  | @sector n k s u events words others _ pauses ready whole rest ih =>
    simp only [List.mem_append, List.mem_map] at among
    rcases among with reading | ⟨word, _, same⟩ | ⟨value, _, same⟩ | later
    · obtain ⟨i, low, same⟩ := mem_readings.mp reading
      cases same
      rcases Nat.lt_or_eq_of_le (Nat.le_of_lt_succ low) with before | rfl
      · exact (ready.2.1 i before).imp_right And.left
      · exact .inr ready.2.2.2.1
    · cases same
    · cases same
    · exact ih done later

theorem mem_opening {command : UInt8} (among : event ∈ opening s k lba count command) :
    (∃ status, event = .inb ataStatus status) ∨
    ∃ port value, event = .outb port value ∧ (port = ataCommand → value = command) := by
  simp only [opening, selected, List.mem_append, List.mem_cons, List.not_mem_nil, or_false] at among
  rcases among with reading | (rfl | rfl | rfl | rfl | rfl) | rfl
  · obtain ⟨i, low, rfl⟩ := mem_readings.mp reading
    exact .inl ⟨_, rfl⟩
  · exact .inr ⟨_, _, rfl, fun same => absurd same (by decide)⟩
  · exact .inr ⟨_, _, rfl, fun same => absurd same (by decide)⟩
  · exact .inr ⟨_, _, rfl, fun same => absurd same (by decide)⟩
  · exact .inr ⟨_, _, rfl, fun same => absurd same (by decide)⟩
  · exact .inr ⟨_, _, rfl, fun same => absurd same (by decide)⟩
  · exact .inr ⟨_, _, rfl, fun _ => rfl⟩

variable (transfer : Transfer (PortEvent.outw ataData) n t events words 0 u) (waited : Waited u j)

include transfer waited in
theorem unfaulted_iff (more : n ≠ 0) :
    Unfaulted (opening s k lba count cmdWrite ++ (events ++ .outb ataCommand cmdFlush :: readings u j)) ↔ FlushQuiet u := by
  constructor
  · intro unfaulted i idle
    obtain ⟨word, among⟩ := transfer.some_word more
    obtain ⟨before, after, whole⟩ := List.append_of_mem among
    have last : i < j := by
      rw [waited.of_idle idle]
      exact Nat.lt_succ_self i
    have clear := unfaulted (opening s k lba count cmdWrite ++ before) word (after ++ .outb ataCommand cmdFlush :: readings u j)
      (by simp only [whole, List.append_assoc, List.cons_append]) (u.get i)
      (List.mem_append_right after (List.mem_cons_of_mem _ (mem_readings.mpr ⟨i, last, rfl⟩)))
    exact clear.resolve_left idle.2.2
  · intro quiet before word after split status among
    have lacks : PortEvent.outw ataData word ∉ opening s k lba count cmdWrite := by
      intro inside
      rcases mem_opening inside with ⟨_, same⟩ | ⟨_, _, same, _⟩
      · cases same
      · cases same
    obtain ⟨rest, -, found⟩ := split_after split lacks
    have inside : PortEvent.inb ataStatus status ∈ events ++ .outb ataCommand cmdFlush :: readings u j :=
      found ▸ List.mem_append_right rest (List.mem_cons_of_mem _ among)
    rcases List.mem_append.mp inside with early | late
    · exact transfer.clean rfl early
    · rcases List.mem_cons.mp late with same | reading
      · cases same
      · obtain ⟨i, low, same⟩ := mem_readings.mp reading
        cases same
        exact or_iff_not_imp_left.mpr fun idle => quiet i (waited.idle_of low idle)

include transfer waited in
theorem flushAnswered_iff :
    FlushAnswered (opening s k lba count cmdWrite ++ (events ++ .outb ataCommand cmdFlush :: readings u j)) ↔
      ∃ i, TurnsIdle u i := by
  rw [← List.append_assoc]
  constructor
  · intro answered
    obtain ⟨status, among, idle⟩ := answered _ _ rfl
    obtain ⟨i, low, same⟩ := mem_readings.mp among
    cases same
    exact ⟨i, waited.idle_of low idle⟩
  · rintro ⟨i, idle⟩ before after split
    have lacks : PortEvent.outb ataCommand cmdFlush ∉ opening s k lba count cmdWrite ++ events := by
      intro inside
      rcases List.mem_append.mp inside with first | second
      · rcases mem_opening first with ⟨_, same⟩ | ⟨port, value, same, known⟩
        · cases same
        · cases same
          exact absurd (known rfl) (by decide)
      · rcases transfer.accesses second with ⟨_, same⟩ | ⟨_, same⟩ | ⟨_, same⟩
        all_goals cases same
    obtain ⟨rest, -, found⟩ := split_after split lacks
    cases rest with
    | nil =>
      obtain ⟨-, rfl⟩ := List.cons.inj found
      refine ⟨u.get i, mem_readings.mpr ⟨i, ?_, rfl⟩, idle.2.2⟩
      rw [waited.of_idle idle]
      exact Nat.lt_succ_self i
    | cons other rest =>
      obtain ⟨-, found⟩ := List.cons.inj found
      have among : PortEvent.outb ataCommand cmdFlush ∈ readings u j :=
        found ▸ List.mem_append_right rest List.mem_cons_self
      obtain ⟨_, _, same⟩ := mem_readings.mp among
      cases same

/-- A write succeeds exactly when the drive takes the blocks, whatever it answers to FLUSH. -/
theorem WriteRun.outcome (run : WriteRun lba count buffer s result events t) (some : count ≠ 0) :
    (result = 0 ∧ ∃ u j, Takes count.toNat s u ∧ Waited u j ∧ t = u.drop j ∧ (Unfaulted events ↔ FlushQuiet u) ∧
      (FlushAnswered events ↔ ∃ i, TurnsIdle u i)) ∨
    (result ≠ 0 ∧ ∀ u, ¬ Takes count.toNat s u) := by
  have more : count.toNat ≠ 0 := fun zero => some (UInt8.toNat_inj.mp zero)
  cases run with
  | busy never => exact .inr ⟨by decide, fun u ⟨k, idle, _⟩ => never k idle⟩
  | @failed k events words result u idle transfer sent bad =>
    refine .inr ⟨bad, fun v ⟨i, idle', asks⟩ => ?_⟩
    cases idle.unique idle'
    exact transfer.not_asks bad asks
  | @done k j events words u idle transfer sent waited =>
    exact .inl ⟨rfl, u, j, ⟨k, idle, transfer.asks rfl⟩, waited, rfl, unfaulted_iff transfer waited more,
      flushAnswered_iff transfer waited⟩

/-- A write that answers 0 was accepted exactly when no drive that takes the blocks lets
the wait after FLUSH run out or end at an error. -/
theorem ataWrite_accepted_iff (d : AtaDriver) (lba : UInt32) (count : UInt8) (some : 1 ≤ count) (buffer : Bytes) :
    ∃ events, (ataWrite d lba count buffer).2.ports.trace = d.ports.trace ++ events ∧
      (Accepted (ataWrite d lba count buffer).1 events ↔
        (d.present = true → ∀ u, Takes count.toNat d.ports.status u → FlushClean u)) := by
  have more : count ≠ 0 := by
    intro zero
    rw [zero] at some
    exact absurd some (by decide)
  cases found : d.present with
  | false =>
    have run : ataWrite d lba count buffer = (-1, d) := by
      rw [ataWrite, found]
      rfl
    rw [run]
    refine ⟨[], (List.append_nil _).symm, ?_⟩
    exact iff_of_true (fun done => absurd done (by decide : ¬ (-1 : Int) = 0)) fun present => absurd present Bool.false_ne_true
  | true =>
    obtain ⟨-, events, did, run⟩ := ataWrite_run found more lba buffer
    refine ⟨events, did.trace, ?_⟩
    rcases run.outcome more with ⟨done, u, j, takes, waited, -, unfaulted, answered⟩ | ⟨failed, never⟩
    · unfold Accepted
      rw [unfaulted, answered, ← flushClean_iff]
      constructor
      · intro clean _ v takes'
        cases takes.unique takes'
        exact clean done
      · intro clean _
        exact clean rfl u takes
    · exact iff_of_true (fun done => absurd done failed) fun _ u takes => absurd takes (never u)

end Writing

section Saving

/-- Writes of one sector, one after another: `us` are the answers from each FLUSH on. -/
inductive Series : Stream' UInt8 → List (Stream' UInt8) → Prop where
  | nil {s : Stream' UInt8} : Series s []
  | cons {s u : Stream' UInt8} {us : List (Stream' UInt8)} {j : ℕ} (takes : Takes 1 s u) (waited : Waited u j)
      (rest : Series (u.drop j) us) : Series s (u :: us)

theorem Series.unique {us vs : List (Stream' UInt8)} (here : Series s us) (there : Series s vs) (length : us.length = vs.length) :
    us = vs := by
  induction here generalizing vs with
  | nil => exact (List.length_eq_zero_iff.mp length.symm).symm
  | cons takes waited rest ih =>
    cases there with
    | nil => cases length
    | cons takes' waited' rest' =>
      cases takes.unique takes'
      cases waited.unique waited'
      rw [ih rest' (Nat.succ.inj length)]

/-- What some calls of `ata_write` leave in the record: the accesses of each, next to the
answers to its FLUSH. -/
def Recorded (log after : AtaLog) (n : ℕ) : Prop :=
  ∃ us lists, us.length = n ∧ Series log.driver.ports.status us ∧ after.writes = log.writes ++ lists ∧
    List.Forall₂ (fun events u => Unfaulted events ↔ FlushQuiet u) lists us

theorem ataDriver_write {log : AtaLog} (present : log.driver.present = true) (lba : ℕ) (sector : Sector) :
    (ataDriver.write lba sector log).2.driver.present = true ∧
    (((ataDriver.write lba sector log).1 = true ∧ ∃ events u j, Takes 1 log.driver.ports.status u ∧ Waited u j ∧
        (ataDriver.write lba sector log).2.driver.ports.status = u.drop j ∧
        (ataDriver.write lba sector log).2.writes = log.writes ++ [events] ∧ (Unfaulted events ↔ FlushQuiet u)) ∨
      ((ataDriver.write lba sector log).1 = false ∧ ∀ u, ¬ Takes 1 log.driver.ports.status u)) := by
  have some : (1 : UInt8) ≠ 0 := by decide
  obtain ⟨still, events, did, run⟩ := ataWrite_run present some (UInt32.ofNat lba) sector.at
  rcases call : ataWrite log.driver (UInt32.ofNat lba) 1 sector.at with ⟨result, driver⟩
  have logged : ataDriver.write lba sector log =
      (decide (result = 0), ⟨driver, log.writes ++ [driver.ports.trace.drop log.driver.ports.trace.length]⟩) := by
    simp only [ataDriver, call]
  rw [call] at still did run
  rw [logged, did.trace, List.drop_left]
  refine ⟨still, ?_⟩
  rcases run.outcome some with ⟨done, u, j, takes, waited, left, unfaulted, -⟩ | ⟨failed, never⟩
  · exact .inl ⟨decide_eq_true done, events, u, j, takes, waited, left, rfl, unfaulted⟩
  · exact .inr ⟨decide_eq_false failed, never⟩

/-- One more write in front of the writes that `next` makes. -/
theorem write_outcome {log : AtaLog} {run : FishCode × AtaLog} {next : AtaLog → FishCode × AtaLog}
    (present : log.driver.present = true) (lba : ℕ) (sector : Sector)
    (failed : ∀ middle, ataDriver.write lba sector log = (false, middle) → run = (.io, middle))
    (came : ∀ middle, ataDriver.write lba sector log = (true, middle) → run = next middle)
    (rest : ∀ log : AtaLog, log.driver.present = true →
      ((next log).1 = .ok ∧ Recorded log (next log).2 n) ∨
      ((next log).1 ≠ .ok ∧ ∀ us, us.length = n → ¬ Series log.driver.ports.status us)) :
    (run.1 = .ok ∧ Recorded log run.2 (n + 1)) ∨
    (run.1 ≠ .ok ∧ ∀ us, us.length = n + 1 → ¬ Series log.driver.ports.status us) := by
  obtain ⟨still, outcome⟩ := ataDriver_write present lba sector
  rcases write : ataDriver.write lba sector log with ⟨good, middle⟩
  rw [write] at still outcome
  rcases outcome with ⟨rfl, events, u, j, takes, waited, left, written, unfaulted⟩ | ⟨rfl, never⟩
  · rw [came middle write]
    rcases rest middle still with ⟨done, us, lists, length, series, more, each⟩ | ⟨bad, never⟩
    · rw [written, List.append_assoc] at more
      rw [left] at series
      exact .inl ⟨done, u :: us, events :: lists, congrArg Nat.succ length, .cons takes waited series, more, .cons unfaulted each⟩
    · refine .inr ⟨bad, fun us length series => ?_⟩
      cases series with
      | nil => cases length
      | cons takes' waited' series' =>
        cases takes.unique takes'
        cases waited.unique waited'
        rw [← left] at series'
        exact never _ (Nat.succ.inj length) series'
  · rw [failed middle write]
    refine .inr ⟨FishCode.noConfusion, fun us length series => ?_⟩
    cases series with
    | nil => cases length
    | cons takes waited series => exact never _ takes

theorem saveSectors_outcome (source : Bytes) (n s written : ℕ) {log : AtaLog} (present : log.driver.present = true) :
    ((saveSectors ataDriver source n s written log).1 = .ok ∧
      Recorded log (saveSectors ataDriver source n s written log).2 n) ∨
    ((saveSectors ataDriver source n s written log).1 ≠ .ok ∧
      ∀ us, us.length = n → ¬ Series log.driver.ports.status us) := by
  induction n generalizing s written log with
  | zero => exact .inl ⟨rfl, [], [], rfl, .nil, (List.append_nil _).symm, .nil⟩
  | succ n ih =>
    refine write_outcome present (fishStartLba + 1 + s)
      (fun i => if i < chunkOf written then source (written + i) else 0) (fun middle write => ?_) (fun middle write => ?_)
      fun _ still => ih (s + 1) (written + chunkOf written) still
    · rw [saveSectors, write]
    · rw [saveSectors, write]

theorem fishSave_outcome (s : Fish) {log : AtaLog} (present : log.driver.present = true) :
    ((fishSave ataDriver s log).1 = .ok ∧ Recorded log (fishSave ataDriver s log).2 (nodeSectors + 1)) ∨
    ((fishSave ataDriver s log).1 ≠ .ok ∧ ∀ us, us.length = nodeSectors + 1 → ¬ Series log.driver.ports.status us) := by
  have here : ¬ (!ataDriver.present log) = true := by
    change ¬ (!log.driver.present) = true
    rw [present]
    exact Bool.false_ne_true
  refine write_outcome present fishStartLba
    (Superblock.sector ⟨fishMagic, fishVersion, fishMaxNodes, nodeSize, s.current.toUInt32.toNat⟩)
    (fun middle write => ?_) (fun middle write => ?_) fun _ still => saveSectors_outcome (image s.nodes) nodeSectors 0 0 still
  · rw [fishSave, if_neg here, write]
  · rw [fishSave, if_neg here, write]

theorem forall_iff {α β : Type*} {P : α → Prop} {Q : β → Prop} {xs : List α} {ys : List β}
    (each : List.Forall₂ (fun x y => P x ↔ Q y) xs ys) : (∀ x ∈ xs, P x) ↔ ∀ y ∈ ys, Q y := by
  induction each with
  | nil => exact iff_of_true (fun _ among => absurd among List.not_mem_nil) fun _ among => absurd among List.not_mem_nil
  | cons same _ ih => rw [List.forall_mem_cons, List.forall_mem_cons, same, ih]

/-- `fish_save` answers FISH_OK without an error having been read exactly when no drive
that takes all of its sectors reports one after a FLUSH. -/
theorem fishSave_unfaulted_iff (s : Fish) (d : AtaDriver) :
    ((fishSave ataDriver s ⟨d, []⟩).1 = .ok → ∀ events ∈ (fishSave ataDriver s ⟨d, []⟩).2.writes, Unfaulted events) ↔
      (d.present = true → ∀ us, us.length = nodeSectors + 1 → Series d.ports.status us → ∀ u ∈ us, FlushQuiet u) := by
  cases found : d.present with
  | false =>
    have run : fishSave ataDriver s ⟨d, []⟩ = (.nodisk, ⟨d, []⟩) := by
      have here : (!ataDriver.present ⟨d, []⟩) = true := by
        change (!d.present) = true
        rw [found]
        rfl
      rw [fishSave, if_pos here]
    rw [run]
    exact iff_of_true (fun done => FishCode.noConfusion done) fun present => absurd present Bool.false_ne_true
  | true =>
    rcases @fishSave_outcome s ⟨d, []⟩ found with ⟨done, us, lists, length, series, written, each⟩ | ⟨failed, never⟩
    · rw [List.nil_append] at written
      rw [written, forall_iff each]
      constructor
      · intro quiet _ vs length' series'
        rw [← series.unique series' (length.trans length'.symm)]
        exact quiet done
      · intro quiet _
        exact quiet rfl us length series
    · exact iff_of_true (fun done => absurd done failed) fun _ us length series => absurd series (never us length)

end Saving

theorem write_done_accepted_iff (d : AtaDriver) (lba : UInt32) (count : UInt8) (some : 1 ≤ count) (buffer : Bytes) (s : Fish) :
    (∃ events, (ataWrite d lba count buffer).2.ports.trace = d.ports.trace ++ events ∧
      (Accepted (ataWrite d lba count buffer).1 events ↔
        (d.present = true → ∀ u, Takes count.toNat d.ports.status u → FlushClean u))) ∧
    (((fishSave ataDriver s ⟨d, []⟩).1 = .ok → ∀ events ∈ (fishSave ataDriver s ⟨d, []⟩).2.writes, Unfaulted events) ↔
      (d.present = true → ∀ us, us.length = nodeSectors + 1 → Series d.ports.status us → ∀ u ∈ us, FlushQuiet u)) :=
  ⟨ataWrite_accepted_iff d lba count some buffer, fishSave_unfaulted_iff s d⟩

/-- A drive that is always idle and always asks for a block. -/
def AtaDriver.willing : AtaDriver := ⟨true, ⟨fun _ => Stream'.const 0x58, fun _ => Stream'.const 0, []⟩⟩

theorem willing_idle : TurnsIdle (Stream'.const 0x58) 0 := .first (by unfold Busy; decide)

theorem willing_takes : Takes 1 (Stream'.const 0x58) (Stream'.const 0x58) := by
  have ready : TurnsReady (Stream'.const 0x58) 0 := .first (by unfold Ready Busy Faulted Requests; decide)
  exact ⟨0, willing_idle, .block ready .done⟩

theorem write_done_accepted_of_willing :
    ∃ events, (ataWrite .willing 2048 1 fun _ => 0xAA).2.ports.trace = events ∧
      Accepted (ataWrite .willing 2048 1 fun _ => 0xAA).1 events := by
  obtain ⟨⟨events, trace, accepted⟩, -⟩ := write_done_accepted_iff .willing 2048 1 (by decide) (fun _ => 0xAA) fishInit
  refine ⟨events, trace, accepted.mpr fun _ u takes => ?_⟩
  rw [takes.unique willing_takes]
  exact ⟨0, willing_idle, by unfold Faulted; decide⟩

/-- A drive that turns idle, asks for the block and reports an error after FLUSH, again
and again. -/
def AtaDriver.lossy : AtaDriver :=
  ⟨true, ⟨fun _ i => if i % 3 = 0 then 0x50 else if i % 3 = 1 then 0x58 else 0x51, fun _ => Stream'.const 0, []⟩⟩

theorem lossy_turn : AtaDriver.lossy.ports.status.drop 3 = AtaDriver.lossy.ports.status := by
  funext i
  change (if (i + 3) % 3 = 0 then _ else if (i + 3) % 3 = 1 then _ else _) = if i % 3 = 0 then _ else if i % 3 = 1 then _ else _
  rw [Nat.add_mod_right]

theorem lossy_takes : Takes 1 AtaDriver.lossy.ports.status (AtaDriver.lossy.ports.status.drop 2) := by
  have idle : TurnsIdle AtaDriver.lossy.ports.status 0 := .first (by unfold Busy; decide)
  have ready : TurnsReady (AtaDriver.lossy.ports.status.drop 1) 0 := .first (by unfold Ready Busy Faulted Requests; decide)
  exact ⟨0, idle, .block ready .done⟩

theorem lossy_fault : TurnsIdle (AtaDriver.lossy.ports.status.drop 2) 0 ∧ Faulted ((AtaDriver.lossy.ports.status.drop 2).get 0) :=
  ⟨.first (by unfold Busy; decide), by unfold Faulted; decide⟩

theorem lossy_series (n : ℕ) : Series AtaDriver.lossy.ports.status (List.replicate n (AtaDriver.lossy.ports.status.drop 2)) := by
  induction n with
  | zero => exact .nil
  | succ n ih =>
    refine .cons lossy_takes (.inl ⟨0, lossy_fault.1, rfl⟩) ?_
    rw [Stream'.drop_drop, lossy_turn]
    exact ih

theorem flush_error_hidden :
    (¬ ∀ (d : AtaDriver) (lba : UInt32) (count : UInt8) (buffer : Bytes) (events : List PortEvent), lba.toNat < 2 ^ 28 →
      1 ≤ count → (ataWrite d lba count buffer).2.ports.trace = d.ports.trace ++ events →
      Accepted (ataWrite d lba count buffer).1 events) ∧
    ¬ ∀ (s : Fish) (d : AtaDriver), (fishSave ataDriver s ⟨d, []⟩).1 = .ok →
      ∀ events ∈ (fishSave ataDriver s ⟨d, []⟩).2.writes, Unfaulted events := by
  constructor
  · intro always
    obtain ⟨events, trace, accepted⟩ := ataWrite_accepted_iff .lossy 2048 1 (by decide) fun _ => 0xAA
    have clean := accepted.mp (always .lossy 2048 1 _ events (by decide) (by decide) trace) rfl _ lossy_takes
    exact (flushClean_iff.mp clean).1 0 lossy_fault.1 lossy_fault.2
  · intro always
    have quiet := (fishSave_unfaulted_iff fishInit .lossy).mp (always fishInit .lossy) rfl _
      List.length_replicate (lossy_series (nodeSectors + 1)) _ (List.mem_replicate.mpr ⟨by decide, rfl⟩)
    exact quiet 0 lossy_fault.1 lossy_fault.2

end Seaweed
