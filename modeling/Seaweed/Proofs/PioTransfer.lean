import Seaweed.PioDrive

/-! The loops of `ata.c` against a drive that answers as it should: every wait ends well, and
the words that are moved are those of the blocks. -/

namespace Seaweed
open Library

variable {d : PioDrive} {p : Ports} {port : UInt16} {status : UInt8} {block words : List UInt16} {blocks : List (List UInt16)}
  {good done : PioDrive → Prop}

section Accesses

theorem inb_serves (attached : d.attached = true) (place : port = ataStatus ∨ port = ataControl)
    (turns : d.shows (inb p port).1 → good (d.shown (inb p port).1)) : pio.Serves d p.trace (inb p port).2.trace good := by
  refine Device.Serves.single fun right => ⟨d.shown (inb p port).1, ?_, turns ?_⟩
  · simp only [pio, PioDrive.next, attached, Bool.not_true, Bool.false_eq_true, if_false, if_pos place]
    rfl
  · simp only [pio, PioDrive.answers, attached, if_true] at right
    exact right

theorem inw_serves (attached : d.attached = true) {word : UInt16} (task : d.task = .sending (word :: words) blocks)
    {after : PioDrive} (gives : d.give = some after) (turns : (inw p ataData).1 = word → good after) :
    pio.Serves d p.trace (inw p ataData).2.trace good := by
  refine Device.Serves.single fun right => ⟨after, ?_, turns ?_⟩
  · simp only [pio, PioDrive.next, attached, Bool.not_true, Bool.false_eq_true, if_false, if_true, gives]
  · simp only [pio, PioDrive.answers, task] at right
    exact right attached

theorem outw_serves (attached : d.attached = true) (word : UInt16) {after : PioDrive} (takes : d.take word = some after)
    (holds : good after) : pio.Serves d p.trace (outw p ataData word).trace good := by
  refine Device.Serves.single fun _ => ⟨after, ?_, holds⟩
  simp only [pio, PioDrive.next, attached, Bool.not_true, Bool.false_eq_true, if_false, if_true, takes]

theorem outb_serves (attached : d.attached = true) (value : UInt8) {after : PioDrive} (writes : d.write port value = some after)
    (holds : good after) : pio.Serves d p.trace (outb p port value).trace good := by
  refine Device.Serves.single fun _ => ⟨after, ?_, holds⟩
  simp only [pio, PioDrive.next, attached, Bool.not_true, Bool.false_eq_true, if_false, writes]

end Accesses

section Waits

/-- A loop over the status port that ends as soon as the status has an answer. -/
structure Polls (loop : ℕ → Ports → Int × Ports) (answer : UInt8 → Option Int) : Prop where
  ended : ∀ p, loop 0 p = (-2, p)
  turn : ∀ left p, loop (left + 1) p =
    (answer (inb p ataStatus).1).elim (loop left (inb p ataStatus).2) fun value => (value, (inb p ataStatus).2)

theorem waitReady_polls : Polls waitReadyFrom readyAnswer where
  ended := fun _ => rfl
  turn := by
    intro left p
    change (if (inb p ataStatus).1 &&& statusBsy ≠ 0 then waitReadyFrom left (inb p ataStatus).2
      else if (inb p ataStatus).1 &&& (statusErr ||| statusDf) ≠ 0 then (-1, (inb p ataStatus).2)
      else if (inb p ataStatus).1 &&& statusDrq ≠ 0 then (0, (inb p ataStatus).2)
      else waitReadyFrom left (inb p ataStatus).2) = _
    unfold readyAnswer
    split_ifs <;> rfl

theorem waitNotBusy_polls : Polls waitNotBusyFrom idleAnswer where
  ended := fun _ => rfl
  turn := by
    intro left p
    change (if (inb p ataStatus).1 &&& statusBsy = 0 then (0, (inb p ataStatus).2)
      else waitNotBusyFrom left (inb p ataStatus).2) = _
    unfold idleAnswer
    split_ifs <;> rfl

variable {loop : ℕ → Ports → Int × Ports} {answer : UInt8 → Option Int}

theorem Polls.grows (polls : Polls loop answer) (left : ℕ) (p : Ports) : p.trace <+: (loop left p).2.trace := by
  induction left generalizing p with
  | zero =>
    rw [polls.ended]
  | succ left ih =>
    have one : p.trace <+: (inb p ataStatus).2.trace := List.prefix_append ..
    rw [polls.turn]
    cases answer (inb p ataStatus).1 with
    | none => exact one.trans (ih _)
    | some value => exact one

/-- The loop ends well when the drive has only as many readings to itself as the loop makes. -/
theorem Polls.serves (polls : Polls loop answer) (waits : ℕ → PioDrive → Prop) (attached : ∀ left d, waits left d → d.attached = true)
    (turn : ∀ left d status, waits left d → d.shows status → (answer status = some 0 ∧ done (d.shown status)) ∨
      answer status = none ∧ ∃ fewer, left = fewer + 1 ∧ waits fewer (d.shown status))
    (left : ℕ) (d : PioDrive) (p : Ports) (start : waits left d) :
    pio.Serves d p.trace (loop (left + 1) p).2.trace fun after => (loop (left + 1) p).1 = 0 ∧ done after := by
  induction left using Nat.strong_induction_on generalizing d p with
  | _ left ih =>
    have one := @inb_serves d p ataStatus
      (fun after => (answer (inb p ataStatus).1 = some 0 ∧ done after) ∨
        answer (inb p ataStatus).1 = none ∧ ∃ fewer, left = fewer + 1 ∧ waits fewer after)
      (attached _ _ start) (.inl rfl) (turn left d _ start)
    rw [polls.turn]
    cases found : answer (inb p ataStatus).1 with
    | none =>
      rw [found] at one
      refine one.andThen (polls.grows _ _) fun after holds => ?_
      rcases holds with ⟨none, _⟩ | ⟨_, fewer, rfl, waits⟩
      · cases none
      · exact ih fewer (Nat.lt_succ_self fewer) after _ waits
    | some value =>
      rw [found] at one
      refine one.mono fun after holds => ?_
      rcases holds with ⟨zero, holds⟩ | ⟨none, _⟩
      · exact ⟨Option.some.inj zero, holds⟩
      · cases none

theorem ready_shown (ready : Ready status) : ¬ (Busy status ∨ ¬ Requests status) :=
  fun waits => waits.elim ready.1 fun none => none ready.2.2

theorem pending_shown (pending : Pending status) : Busy status ∨ ¬ Requests status :=
  pending.imp id fun rests => rests.1.2.1

theorem pending_skipped (pending : Pending status) : Skipped status := pending.imp id fun rests => ⟨rests.2, rests.1.2.1⟩

/-- The two kinds of work that end with the drive asking for words. -/
inductive Awaits : (ℕ → Task) → Task → Prop where
  | block (block : List UInt16) (blocks : List (List UInt16)) :
      Awaits (fun polls => .preparing polls block blocks) (.sending block blocks)
  | room (lba more : ℕ) : Awaits (fun polls => .asking polls lba more) (.taking lba more [])

/-- The drive is at work on it, or done. -/
def Soon (work : ℕ → Task) (goal t : Task) : Prop := t = goal ∨ ∃ polls, polls < waitLimit ∧ t = work polls

variable {work : ℕ → Task} {goal : Task}

theorem Awaits.working (awaits : Awaits work goal) {polls : ℕ} (shows : PioDrive.shows { d with task := work polls } status) :
    (Ready status ∧ PioDrive.shown { d with task := work polls } status = { d with task := goal }) ∨
      Pending status ∧ polls + 1 < waitLimit ∧ PioDrive.shown { d with task := work polls } status = { d with task := work (polls + 1) } := by
  cases awaits with
  | block block blocks =>
    rcases shows with ready | ⟨pending, more⟩
    · exact .inl ⟨ready, by simp only [PioDrive.shown, if_neg (ready_shown ready)]⟩
    · exact .inr ⟨pending, more, by simp only [PioDrive.shown, if_pos (pending_shown pending)]⟩
  | room lba rest =>
    rcases shows with ready | ⟨pending, more⟩
    · exact .inl ⟨ready, by simp only [PioDrive.shown, if_neg (ready_shown ready)]⟩
    · exact .inr ⟨pending, more, by simp only [PioDrive.shown, if_pos (pending_shown pending)]⟩

theorem Awaits.there (awaits : Awaits work goal) (shows : PioDrive.shows { d with task := goal } status) :
    Ready status ∧ PioDrive.shown { d with task := goal } status = { d with task := goal } := by
  cases awaits <;> exact ⟨shows, rfl⟩

/-- `wait_ready` ends with the drive asking for words. -/
theorem waitReady_serves (attached : d.attached = true) (awaits : Awaits work goal) (soon : Soon work goal d.task) (p : Ports) :
    pio.Serves d p.trace (waitReady p).2.trace fun after => (waitReady p).1 = 0 ∧ after = { d with task := goal } := by
  have turn : ∀ left e status,
      (e.attached = true ∧ (e = { d with task := goal } ∨
        ∃ polls, e = { d with task := work polls } ∧ waitLimit ≤ polls + left + 1)) → e.shows status →
      (readyAnswer status = some 0 ∧ e.shown status = { d with task := goal }) ∨
        readyAnswer status = none ∧ ∃ fewer, left = fewer + 1 ∧ ((e.shown status).attached = true ∧
          ((e.shown status) = { d with task := goal } ∨
            ∃ polls, e.shown status = { d with task := work polls } ∧ waitLimit ≤ polls + fewer + 1)) := by
    rintro left e status ⟨on, rfl | ⟨polls, rfl, late⟩⟩ shows
    · obtain ⟨ready, same⟩ := awaits.there shows
      exact .inl ⟨readyAnswer_zero.mpr ready, same⟩
    · rcases awaits.working shows with ⟨ready, same⟩ | ⟨pending, more, same⟩
      · exact .inl ⟨readyAnswer_zero.mpr ready, same⟩
      · obtain ⟨fewer, rfl⟩ : ∃ fewer, left = fewer + 1 := ⟨left - 1, by omega⟩
        rw [same]
        exact .inr ⟨readyAnswer_none.mpr (pending_skipped pending), fewer, rfl, on, .inr ⟨polls + 1, rfl, by omega⟩⟩
  refine waitReady_polls.serves _ (fun _ _ waits => waits.1) turn (waitLimit - 1) d p ⟨attached, ?_⟩
  rcases soon with there | ⟨polls, _, working⟩
  · exact .inl (by rw [← there])
  · exact .inr ⟨polls, by rw [← working], by omega⟩

/-- `wait_not_busy` on a drive that has nothing to do. -/
theorem waitNotBusy_idle (attached : d.attached = true) (idle : d.task = .idle) (p : Ports) :
    pio.Serves d p.trace (waitNotBusy p).2.trace fun after => (waitNotBusy p).1 = 0 ∧ after = d := by
  refine waitNotBusy_polls.serves (fun _ e => e = d) (fun _ _ same => same ▸ attached) ?_ (waitLimit - 1) d p rfl
  rintro left e status rfl shows
  have rests : Resting status := by
    rw [PioDrive.shows, idle] at shows
    exact shows
  refine .inl ⟨idleAnswer_some.mpr ⟨rests.1, rfl⟩, ?_⟩
  rw [PioDrive.shown, idle]

/-- The wait after FLUSH ends with everything written stored. -/
theorem waitNotBusy_flushes (attached : d.attached = true) (flushing : d.task = .flushing 0) (p : Ports) :
    pio.Serves d p.trace (waitNotBusy p).2.trace fun after =>
      (waitNotBusy p).1 = 0 ∧ after = { d with task := .idle, stored := d.cache } := by
  refine waitNotBusy_polls.serves
    (fun left e => ∃ polls, e = { d with task := .flushing polls } ∧ waitLimit ≤ polls + left + 1)
    (fun _ _ waits => ?_) ?_ (waitLimit - 1) d p ⟨0, by rw [← flushing], by decide⟩
  · obtain ⟨polls, rfl, _⟩ := waits
    exact attached
  · rintro left e status ⟨polls, rfl, late⟩ shows
    rcases shows with rests | ⟨busy, more⟩
    · refine .inl ⟨idleAnswer_some.mpr ⟨rests.1, rfl⟩, ?_⟩
      simp only [PioDrive.shown, if_neg rests.1]
    · obtain ⟨fewer, rfl⟩ : ∃ fewer, left = fewer + 1 := ⟨left - 1, by omega⟩
      refine .inr ⟨idleAnswer_none.mpr busy, fewer, rfl, polls + 1, ?_, by omega⟩
      simp only [PioDrive.shown, if_pos busy]

/-- Four readings of the alternate status, with what each of them leaves. -/
theorem delay400ns_serves (stage : ℕ → PioDrive → Prop) (attached : ∀ n e, stage n e → e.attached = true)
    (turn : ∀ n e status, stage n e → e.shows status → stage (n + 1) (e.shown status)) (start : stage 0 d) (p : Ports) :
    pio.Serves d p.trace (delay400ns p).trace (stage 4) := by
  have one : ∀ n e (p : Ports), stage n e → pio.Serves e p.trace (inb p ataControl).2.trace (stage (n + 1)) :=
    fun n e p holds => inb_serves (attached n e holds) (.inr rfl) (turn n e _ holds)
  have grows : ∀ p : Ports, p.trace <+: (inb p ataControl).2.trace := fun p => List.prefix_append ..
  refine (one 0 d p start).andThen ((grows _).trans ((grows _).trans (grows _))) fun first holds => ?_
  refine (one 1 first _ holds).andThen ((grows _).trans (grows _)) fun second holds => ?_
  refine (one 2 second _ holds).andThen (grows _) fun third holds => ?_
  exact one 3 third _ holds

/-- A drive at work may have come further. -/
theorem delay400ns_soon (attached : d.attached = true) (awaits : Awaits work goal) (soon : Soon work goal d.task) (p : Ports) :
    pio.Serves d p.trace (delay400ns p).trace fun after => ∃ t, after = { d with task := t } ∧ Soon work goal t := by
  refine delay400ns_serves (fun _ e => ∃ t, e = { d with task := t } ∧ Soon work goal t) ?_ ?_ ⟨d.task, rfl, soon⟩ p
  · rintro n e ⟨t, rfl, _⟩
    exact attached
  · rintro n e status ⟨t, rfl, rfl | ⟨polls, few, rfl⟩⟩ shows
    · exact ⟨_, (awaits.there shows).2, .inl rfl⟩
    · rcases awaits.working shows with ⟨_, same⟩ | ⟨_, more, same⟩
      · exact ⟨goal, same, .inl rfl⟩
      · exact ⟨_, same, .inr ⟨polls + 1, more, rfl⟩⟩

theorem delay400ns_idle (attached : d.attached = true) (idle : d.task = .idle) (p : Ports) :
    pio.Serves d p.trace (delay400ns p).trace fun after => after = d := by
  refine delay400ns_serves (fun _ e => e = d) (fun n e same => same ▸ attached) ?_ rfl p
  rintro n e status rfl _
  rw [PioDrive.shown, idle]

/-- The last block of a WRITE has been taken by the fourth reading. -/
theorem delay400ns_settles (attached : d.attached = true) (settling : d.task = .settling 0) (p : Ports) :
    pio.Serves d p.trace (delay400ns p).trace fun after => after = { d with task := .idle } := by
  have stages := @delay400ns_serves d
    (fun n e => e = { d with task := .idle } ∨ n ≤ 3 ∧ e = { d with task := .settling n }) ?_ ?_
    (.inr ⟨Nat.zero_le 3, by rw [← settling]⟩) p
  · refine stages.mono fun after ends => ?_
    rcases ends with same | ⟨few, _⟩
    · exact same
    · omega
  · rintro n e (rfl | ⟨_, rfl⟩) <;> exact attached
  · rintro n e status (rfl | ⟨few, rfl⟩) shows
    · exact .inl rfl
    · rcases shows with rests | ⟨busy, more⟩
      · exact .inl (by simp only [PioDrive.shown, if_neg rests.1])
      · exact .inr ⟨by omega, by simp only [PioDrive.shown, if_pos busy]⟩

end Waits

section Words

variable {m : Bytes} {a : ℕ}

/-- After the last word of a block comes the next block, if there is one. -/
def Task.next : List (List UInt16) → Task
  | [] => .idle
  | block :: blocks => .preparing 0 block blocks

/-- A block is read into the buffer as it is. -/
theorem readWords_serves (attached : d.attached = true) {word : UInt16} (task : d.task = .sending (word :: words) blocks)
    (m : Bytes) (a : ℕ) (p : Ports) :
    pio.Serves d p.trace (readWords (words.length + 1) a m p).2.trace fun after =>
      Filled a (word :: words) m (readWords (words.length + 1) a m p).1 ∧ after = { d with task := .next blocks } := by
  induction words generalizing word d m a p with
  | nil =>
    have gives : d.give = some { d with task := .next blocks } := by
      rw [PioDrive.give, task]
      cases blocks <;> rfl
    refine inw_serves attached task gives fun same => ⟨?_, rfl⟩
    rw [← same]
    exact .one
  | cons second words ih =>
    have gives : d.give = some { d with task := .sending (second :: words) blocks } := by
      rw [PioDrive.give, task]
    have one := @inw_serves d p _ _ (fun after => (inw p ataData).1 = word ∧ after = { d with task := .sending (second :: words) blocks })
      attached word task _ gives fun same => ⟨same, rfl⟩
    obtain ⟨_, _, did, _⟩ := readWords_moves (words.length + 1) (a + 2) (storeHalf m a (inw p ataData).1) (inw p ataData).2
    have grows : (inw p ataData).2.trace <+: (readWords (words.length + 1 + 1) a m p).2.trace := ⟨_, did.trace.symm⟩
    refine one.andThen grows ?_
    rintro after ⟨same, rfl⟩
    refine (ih (d := { d with task := .sending (second :: words) blocks }) attached rfl (storeHalf m a (inw p ataData).1) (a + 2) (inw p ataData).2).mono ?_
    rintro final ⟨filled, rfl⟩
    refine ⟨?_, rfl⟩
    rw [← same]
    exact Filled.one.append filled rfl

/-- The words of the buffer from `a` on. -/
def halves (m : Bytes) (a n : ℕ) : List UInt16 := (List.range n).map fun i => halfAt m (a + 2 * i)

theorem halves_succ (m : Bytes) (a n : ℕ) : halves m a (n + 1) = halfAt m a :: halves m (a + 2) n := by
  rw [halves, List.range_succ_eq_map, List.map_cons, List.map_map]
  refine congrArg _ (List.map_congr_left fun i _ => ?_)
  rw [Function.comp_apply, Nat.mul_succ, Nat.add_assoc, Nat.add_comm 2]

/-- A drive that has taken a block into its cache. -/
def PioDrive.stowed (d : PioDrive) (lba more : ℕ) (sector : Sector) : PioDrive :=
  { d with
    cache := Function.update d.cache lba sector
    task := if more = 0 then .settling 0 else .asking 0 (lba + 1) (more - 1) }

/-- A block is written out of the buffer as it is. -/
theorem writeWords_serves (attached : d.attached = true) {lba more left : ℕ} (task : d.task = .taking lba more words)
    (whole : words.length + (left + 1) = sectorWords) (m : Bytes) (a : ℕ) (p : Ports) :
    pio.Serves d p.trace (writeWords m (left + 1) a p).trace fun after =>
      after = d.stowed lba more (sectorOf (words ++ halves m a (left + 1))) := by
  induction left generalizing words d a p with
  | zero =>
    have takes : d.take (halfAt m a) = some (d.stowed lba more (sectorOf (words ++ halves m a 1))) := by
      rw [PioDrive.take, task]
      exact if_neg (by omega)
    exact outw_serves attached _ takes rfl
  | succ left ih =>
    have takes : d.take (halfAt m a) = some { d with task := .taking lba more (words ++ [halfAt m a]) } := by
      rw [PioDrive.take, task]
      exact if_pos (by omega)
    have one := @outw_serves d p (fun after => after = { d with task := .taking lba more (words ++ [halfAt m a]) })
      attached _ _ takes rfl
    obtain ⟨_, _, did, _⟩ := writeWords_moves m (left + 1) (a + 2) (outw p ataData (halfAt m a))
    have grows : (outw p ataData (halfAt m a)).trace <+: (writeWords m (left + 1 + 1) a p).trace := ⟨_, did.trace.symm⟩
    refine one.andThen grows ?_
    rintro after rfl
    have rest : (words ++ [halfAt m a]).length + (left + 1) = sectorWords := by
      rw [List.length_append, List.length_singleton]
      omega
    refine (ih (d := { d with task := .taking lba more (words ++ [halfAt m a]) }) attached rfl rest (a + 2) _).mono ?_
    rintro final rfl
    rw [halves_succ m a (left + 1), List.append_assoc]
    rfl

end Words
end Seaweed
