import Seaweed.Keyboard
import Seaweed.Library.RingBuffer
import Seaweed.Library.Runs

/-! The buffer of `keyboard.c` as a queue. A push may come between any two memory steps of
`keyboard_getchar`, and the invariant holds after every one of them. -/

namespace Seaweed
open Library

variable {k : Keyboard} {m after : KeyMachine} {c : Int32}

section Indices

theorem following_toNat (i : UInt32) : (following i).toNat = (i.toNat + 1) % bufferSize := by
  have mask : (UInt32.ofNat bufferSize - 1).toNat = 2 ^ 7 - 1 := rfl
  rw [following, UInt32.toNat_and, mask, Nat.and_two_pow_sub_one_eq_mod, UInt32.toNat_add]
  change (i.toNat + 1) % 2 ^ 32 % 2 ^ 7 = (i.toNat + 1) % 128
  omega

theorem place_eq {i : UInt32} {j : ℕ} (same : i.toNat = j % bufferSize) : place i = some (Fin.ofNat bufferSize j) := by
  have inside : i.toNat < bufferSize := by
    rw [same]
    exact Nat.mod_lt _ (by decide)
  rw [place, dif_pos inside]
  exact congrArg some (Fin.ext same)

end Indices

/-- The keys not yet released stand in the buffer in order, from `tail` up to `head`, and
a call under way has seen the first of them. -/
structure Queued (m : KeyMachine) : Prop where
  ring : Ring m.keyboard.buffer m.accepted m.released
  head : m.keyboard.head.toNat = m.accepted.length % bufferSize
  tail : m.keyboard.tail.toNat = m.released % bufferSize
  order : (m.returned.filter fun c => decide (c ≠ 0)) = m.accepted.take m.released
  nonzero : ∀ c ∈ m.accepted, c ≠ 0
  reading : m.reader = .reading → m.released < m.accepted.length
  advancing : ∀ c, m.reader = .advancing c → m.accepted[m.released]? = some c

theorem start_queued (k : Keyboard) : Queued (KeyMachine.start k) where
  ring := .empty _
  head := rfl
  tail := rfl
  order := rfl
  nonzero := fun _ member => absurd member List.not_mem_nil
  reading := nofun
  advancing := nofun

theorem Queued.empty_iff (queued : Queued m) : m.keyboard.head = m.keyboard.tail ↔ m.accepted.length = m.released := by
  rw [← UInt32.toNat_inj, queued.head, queued.tail]
  exact queued.ring.empty_iff

theorem Queued.full_iff (queued : Queued m) :
    following m.keyboard.head = m.keyboard.tail ↔ m.accepted.length = m.released + 127 := by
  rw [← UInt32.toNat_inj, following_toNat, queued.head, queued.tail, Nat.mod_add_mod]
  refine queued.ring.full_iff.trans ?_
  simp only [bufferSize]
  omega

/-- A key that is dropped finds 127 keys that are not released. -/
theorem Queued.push_step (queued : Queued m) (key : c ≠ 0) :
    ∃ after, (KeyAct.push c).step m = some after ∧ Queued after ∧
      (after.accepted = m.accepted ++ [c] ∨ after = m ∧ m.accepted.length = m.released + 127) := by
  by_cases full : following m.keyboard.head = m.keyboard.tail
  · have pushed : bufferPush m.keyboard c = some m.keyboard := if_pos full
    refine ⟨m, ?_, queued, .inr ⟨rfl, queued.full_iff.mp full⟩⟩
    simp [KeyAct.step, pushed, full]
  · have space : m.accepted.length + 1 < m.released + bufferSize := by
      have room := queued.ring.room
      have differ := mt queued.full_iff.mpr full
      simp only [bufferSize] at room ⊢
      omega
    have pushed : bufferPush m.keyboard c = some { m.keyboard with
        buffer := Function.update m.keyboard.buffer (Fin.ofNat bufferSize m.accepted.length) c
        head := following m.keyboard.head } := by
      rw [bufferPush, if_neg full, place_eq queued.head]
      rfl
    refine ⟨_, by simp only [KeyAct.step, pushed, full]; rfl, ?_, .inl rfl⟩
    refine ⟨queued.ring.push space c, ?_, queued.tail, ?_, ?_, ?_, ?_⟩
    · simp only [following_toNat, queued.head, if_false, List.length_append, List.length_singleton, Nat.mod_add_mod]
    · exact queued.order.trans (List.take_append_of_le_length queued.ring.ahead).symm
    · exact List.forall_mem_append.mpr ⟨queued.nonzero, List.forall_mem_singleton.mpr key⟩
    · intro reading
      have waiting := queued.reading reading
      simp only [if_false, List.length_append]
      omega
    · intro held advancing
      have found := queued.advancing held advancing
      have inside := (List.getElem?_eq_some_iff.mp found).1
      exact (List.getElem?_append_left inside).trans found

/-- A call that returns 0 found no key that is not released when it compared. -/
theorem Queued.getchar_step (queued : Queued m) :
    ∃ after, KeyAct.getchar.step m = some after ∧ Queued after ∧
      (after.returned = m.returned ++ [0] → m.reader = .comparing ∧ m.accepted.length = m.released) := by
  cases reader : m.reader with
  | comparing =>
    by_cases empty : m.keyboard.head = m.keyboard.tail
    · refine ⟨{ m with returned := m.returned ++ [0] }, by simp [KeyAct.step, reader, empty], ?_,
        fun _ => ⟨rfl, queued.empty_iff.mp empty⟩⟩
      refine { queued with order := ?_ }
      rw [List.filter_append, queued.order]
      exact List.append_nil _
    · have waiting : m.released < m.accepted.length :=
        Nat.lt_of_le_of_ne queued.ring.ahead fun same => empty (queued.empty_iff.mpr same.symm)
      refine ⟨{ m with reader := .reading }, by simp [KeyAct.step, reader, empty], ?_, fun same => ?_⟩
      · exact { queued with reading := fun _ => waiting, advancing := nofun }
      · exact absurd same.symm (by simp)
  | reading =>
    have waiting := queued.reading reader
    have found := List.getElem?_eq_getElem waiting
    have cell := queued.ring.kept m.released _ (Nat.le_refl _) found
    refine ⟨{ m with reader := .advancing m.accepted[m.released] }, ?_, ?_, fun same => ?_⟩
    · simp [KeyAct.step, reader, place_eq queued.tail, ← cell]
    · refine { queued with reading := nofun, advancing := fun held same => ?_ }
      cases same
      exact found
    · exact absurd same.symm (by simp)
  | advancing c =>
    have found := queued.advancing c reader
    obtain ⟨waiting, held⟩ := List.getElem?_eq_some_iff.mp found
    have key : c ≠ 0 := queued.nonzero c (List.mem_of_getElem? found)
    refine ⟨{ m with
      keyboard := { m.keyboard with tail := following m.keyboard.tail }
      reader := .comparing
      returned := m.returned ++ [c]
      released := m.released + 1 }, by simp [KeyAct.step, reader], ?_, fun same => ?_⟩
    · refine ⟨queued.ring.pop waiting, queued.head, ?_, ?_, queued.nonzero, nofun, nofun⟩
      · rw [following_toNat, queued.tail, Nat.mod_add_mod]
      · rw [List.filter_append, queued.order, List.take_succ_eq_append_getElem waiting, held]
        simp [key]
    · simp only [List.append_cancel_left_eq, List.cons.injEq, and_true] at same
      exact absurd same key

theorem Queued.step (queued : Queued m) {act : KeyAct} (keys : ∀ c, act = .push c → c ≠ 0) :
    ∃ after, act.step m = some after ∧ Queued after := by
  cases act with
  | push c =>
    obtain ⟨after, done, kept, _⟩ := queued.push_step (keys c rfl)
    exact ⟨after, done, kept⟩
  | getchar =>
    obtain ⟨after, done, kept, _⟩ := queued.getchar_step
    exact ⟨after, done, kept⟩

theorem Queued.run (queued : Queued m) {acts : List KeyAct} (keys : ∀ c, .push c ∈ acts → c ≠ 0) :
    ∃ after, runKeys m acts = some after ∧ Queued after :=
  foldlM_keeps (fun _ _ member kept => kept.step fun c same => keys c (same ▸ member)) queued

section Calls

/-- What a call returns without an interrupt in it: the steps of `keyboard_getchar` are
those of the machine. -/
theorem getchar_uninterrupted (comparing : m.reader = .comparing) {k : Keyboard}
    (done : keyboardGetchar m.keyboard = some (c, k)) :
    ∃ steps after, runKeys m (List.replicate steps .getchar) = some after ∧ after.reader = .comparing ∧
      after.keyboard = k ∧ after.returned = m.returned ++ [c] ∧ after.accepted = m.accepted := by
  rw [keyboardGetchar] at done
  split at done
  next empty =>
    cases done
    refine ⟨1, { m with returned := m.returned ++ [0] }, ?_, comparing, rfl, rfl, rfl⟩
    simp [runKeys, KeyAct.step, comparing, empty]
  next waiting =>
    obtain ⟨i, inside, same⟩ := Option.bind_eq_some_iff.mp done
    cases same
    refine ⟨3, { m with
      keyboard := { m.keyboard with tail := following m.keyboard.tail }
      reader := .comparing
      returned := m.returned ++ [m.keyboard.buffer i]
      released := m.released + 1 }, ?_, rfl, rfl, rfl, rfl⟩
    simp [runKeys, KeyAct.step, comparing, waiting, inside, List.replicate]

theorem flipCase_ne_zero {c : UInt8} (letter : c ≠ 0) : flipCase c ≠ 0 := by
  unfold flipCase
  grind

theorem ofNat_ne_zero {c : UInt8} (letter : c ≠ 0) : Int32.ofNat c.toNat ≠ 0 := by
  intro zero
  have value := congrArg Int32.toInt zero
  have small := c.toNat_lt
  rw [Int32.toInt_ofNat_of_lt (by omega)] at value
  change (c.toNat : Int) = 0 at value
  exact letter (UInt8.toNat_inj.mp (Int.natCast_eq_zero.mp value))

theorem extendedKey_ne_zero {scancode : UInt8} {key : Int32} (found : extendedKey scancode = some key) : key ≠ 0 := by
  rintro rfl
  unfold extendedKey at found
  grind

/-- An interrupt pushes one key that is not 0, or none. -/
theorem keyboardCallback_pushes (k : Keyboard) (scancode : UInt8) :
    ∃ flags : Keyboard, flags.buffer = k.buffer ∧ flags.head = k.head ∧ flags.tail = k.tail ∧
      (keyboardCallback k scancode = some flags ∨
        ∃ c, c ≠ 0 ∧ keyboardCallback k scancode = bufferPush flags c) := by
  unfold keyboardCallback
  split
  next => exact ⟨{ k with extended := true }, rfl, rfl, rfl, .inl rfl⟩
  split
  next =>
    refine ⟨{ k with extended := false }, rfl, rfl, rfl, ?_⟩
    dsimp only
    split
    next => exact .inl rfl
    next =>
      cases found : extendedKey scancode with
      | none => exact .inl rfl
      | some key => exact .inr ⟨key, extendedKey_ne_zero found, rfl⟩
  split
  next =>
    split
    next => exact ⟨{ k with shiftHeld := false }, rfl, rfl, rfl, .inl rfl⟩
    next => exact ⟨k, rfl, rfl, rfl, .inl rfl⟩
  split
  next => exact ⟨{ k with shiftHeld := true }, rfl, rfl, rfl, .inl rfl⟩
  split
  next => exact ⟨{ k with capsOn := !k.capsOn }, rfl, rfl, rfl, .inl rfl⟩
  refine ⟨k, rfl, rfl, rfl, ?_⟩
  split
  next => exact .inl rfl
  generalize (if k.shiftHeld = true then keymapShift else keymap).getD scancode.toNat 0 = letter
  dsimp only
  split
  next => exact .inl rfl
  next mapped =>
    refine .inr ⟨_, ofNat_ne_zero ?_, rfl⟩
    split
    next => exact flipCase_ne_zero mapped
    next => exact mapped

end Calls

/-- What the reader of the buffer may rely on. -/
structure FirstInFirstOut (m : KeyMachine) : Prop where
  order : (m.returned.filter fun c => decide (c ≠ 0)) <+: m.accepted
  released : m.released = (m.returned.filter fun c => decide (c ≠ 0)).length
  unread : ∀ j value, m.released ≤ j → m.accepted[j]? = some value →
    m.keyboard.buffer (Fin.ofNat bufferSize j) = value
  push : ∀ c after, c ≠ 0 → (KeyAct.push c).step m = some after →
    after.accepted = m.accepted ++ [c] ∨ after = m ∧ m.accepted.length = m.released + 127
  empty : ∀ after, KeyAct.getchar.step m = some after → after.returned = m.returned ++ [0] →
    m.reader = .comparing ∧ m.accepted.length = m.released
  bounds : m.keyboard.head.toNat < bufferSize ∧ m.keyboard.tail.toNat < bufferSize

theorem Queued.first_in_first_out (queued : Queued m) : FirstInFirstOut m where
  order := by
    rw [queued.order]
    exact List.take_prefix _ _
  released := by
    rw [queued.order, List.length_take_of_le queued.ring.ahead]
  unread := queued.ring.kept
  push := by
    intro c after key done
    obtain ⟨after', done', _, outcome⟩ := queued.push_step key
    cases done.symm.trans done'
    exact outcome
  empty := by
    intro after done
    obtain ⟨after', done', _, outcome⟩ := queued.getchar_step
    cases done.symm.trans done'
    exact outcome
  bounds := by
    rw [queued.head, queued.tail]
    exact ⟨Nat.mod_lt _ (by decide), Nat.mod_lt _ (by decide)⟩

/-- Every interleaving of pushes with the memory steps of `keyboard_getchar` runs, and
loses, repeats and reorders nothing. -/
theorem keyboard_fifo (k : Keyboard) {acts : List KeyAct} (keys : ∀ c, .push c ∈ acts → c ≠ 0) :
    ∃ m, runKeys (KeyMachine.start k) acts = some m ∧ FirstInFirstOut m := by
  obtain ⟨m, ran, queued⟩ := (start_queued k).run keys
  exact ⟨m, ran, queued.first_in_first_out⟩

/-- A push between the comparison and the read. -/
theorem keyboard_fifo_of_late_push :
    ∃ m, runKeys (KeyMachine.start ⟨fun _ => 0, 0, 0, false, false, false⟩)
      [.push 97, .getchar, .push 98, .getchar, .getchar] = some m ∧ FirstInFirstOut m := by
  apply keyboard_fifo _
  intro c member
  rintro rfl
  simp at member

end Seaweed
