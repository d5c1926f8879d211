import Seaweed.Proofs.KeyboardQueue

/-! The shift flag of `keyboard.c` against the shift keys. There are two of them and one
flag, so the flag is right except after one was let go while the other stayed down. -/

namespace Seaweed
open Library

variable {s : TypedKeys} {k : Keyboard} {code : UInt8} {events : List KeyEvent}

section Presses

/-- A press finds space in the buffer, and only a key that is down is released. -/
def KeyEvent.Possible (s : TypedKeys) : KeyEvent → Prop
  | .press code => 1 ≤ code ∧ code ≤ 0x58 ∧ following s.keyboard.head ≠ s.keyboard.tail
  | .release code => 1 ≤ code ∧ code ≤ 0x58 ∧ s.down code = true
  | .read => True

instance (s : TypedKeys) (event : KeyEvent) : Decidable (event.Possible s) :=
  match event with
  | .press _ => inferInstanceAs (Decidable (_ ∧ _ ∧ _))
  | .release _ => inferInstanceAs (Decidable (_ ∧ _ ∧ _))
  | .read => inferInstanceAs (Decidable True)

def Possible (s : TypedKeys) : List KeyEvent → Prop
  | [] => True
  | event :: rest => event.Possible s ∧ ∀ after ∈ event.step s, Possible after rest

def possibleDecidable : (s : TypedKeys) → (events : List KeyEvent) → Decidable (Possible s events)
  | _, [] => inferInstanceAs (Decidable True)
  | s, event :: rest =>
    have (after : TypedKeys) : Decidable (Possible after rest) := possibleDecidable after rest
    inferInstanceAs (Decidable (event.Possible s ∧ ∀ after ∈ event.step s, Possible after rest))

instance (s : TypedKeys) (events : List KeyEvent) : Decidable (Possible s events) := possibleDecidable s events

/-- Something holds at every press of a run, of the state before it. -/
def EveryPress (holds : TypedKeys → UInt8 → Prop) (s : TypedKeys) : List KeyEvent → Prop
  | [] => True
  | event :: rest =>
    (∀ code, event = .press code → holds s code) ∧ ∀ after ∈ event.step s, EveryPress holds after rest

def Mapped (code : UInt8) : Prop := keymap.getD code.toNat 0 ≠ 0

/-- The character for a key under one of the two maps, with or without caps lock. -/
def characterOf (shift caps : Bool) (code : UInt8) : UInt8 :=
  let c := (if shift then keymapShift else keymap).getD code.toNat 0
  if caps then flipCase c else c

def Pushes (k : Keyboard) (code c : UInt8) : Prop :=
  ∃ i, place k.head = some i ∧ keyboardCallback k code = some { k with
    buffer := Function.update k.buffer i (Int32.ofNat c.toNat)
    head := following k.head }

def FollowsShift (s : TypedKeys) (code : UInt8) : Prop :=
  Mapped code → Pushes s.keyboard code (characterOf s.shiftDown s.caps code)

/-- The key has two characters, and a shift is down that the flag does not know of. -/
def Mistaken (s : TypedKeys) (code : UInt8) : Prop :=
  keymap.getD code.toNat 0 ≠ keymapShift.getD code.toNat 0 ∧ s.shiftDown = true ∧ s.orphaned = true

end Presses

section Codes

theorem code_forall {P : UInt8 → Prop} (table : ∀ n < 89, P (UInt8.ofNat n)) (low : code ≤ 0x58) : P code := by
  have entry := table code.toNat (Nat.lt_succ_of_le low)
  rwa [UInt8.ofNat_toNat] at entry

theorem code_bits (low : code ≤ 0x58) :
    code ≠ 0xE0 ∧ code &&& 0x80 = 0 ∧ ¬ 128 ≤ code ∧
      (code ||| 0x80) ≠ 0xE0 ∧ (code ||| 0x80) &&& 0x80 ≠ 0 ∧ (code ||| 0x80) &&& 0x7F = code := by
  apply code_forall _ low
  decide

/-- Both maps leave out the same keys, the shifts and caps lock among them. -/
theorem maps_agree (low : code ≤ 0x58) :
    (keymap.getD code.toNat 0 = 0 ↔ keymapShift.getD code.toNat 0 = 0) ∧
      (keymap.getD code.toNat 0 ≠ 0 → ¬ isShift code ∧ code ≠ 0x3A) := by
  apply code_forall _ low
  decide

theorem flipCase_flipCase (c : UInt8) : flipCase (flipCase c) = c := by
  unfold flipCase
  grind

theorem characterOf_inj {one other caps : Bool} (same : characterOf one caps code = characterOf other caps code) :
    (if one then keymapShift else keymap).getD code.toNat 0 = (if other then keymapShift else keymap).getD code.toNat 0 := by
  simp only [characterOf] at same
  cases caps with
  | false => exact same
  | true =>
    have flipped := congrArg flipCase same
    simp only [if_true, flipCase_flipCase] at flipped
    exact flipped

end Codes

section Decoder

theorem press_callback (plain : k.extended = false) (low : code ≤ 0x58) :
    keyboardCallback k code =
      if isShift code then some { k with shiftHeld := true }
      else if code = 0x3A then some { k with capsOn := !k.capsOn }
      else if (if k.shiftHeld then keymapShift else keymap).getD code.toNat 0 = 0 then some k
      else bufferPush k (Int32.ofNat (characterOf k.shiftHeld k.capsOn code).toNat) := by
  obtain ⟨single, pressed, small, _⟩ := code_bits low
  unfold keyboardCallback
  rw [if_neg single, plain, if_neg Bool.false_ne_true, if_neg (not_not.mpr pressed)]
  simp only [isShift, Bool.or_eq_true, decide_eq_true_eq, if_neg small, characterOf]

theorem release_callback (plain : k.extended = false) (low : code ≤ 0x58) :
    keyboardCallback k (code ||| 0x80) = some (if isShift code then { k with shiftHeld := false } else k) := by
  obtain ⟨_, _, _, single, released, back⟩ := code_bits low
  unfold keyboardCallback
  rw [if_neg single, plain, if_neg Bool.false_ne_true, if_pos released, back]
  simp only [isShift, Bool.or_eq_true, decide_eq_true_eq]
  split <;> rfl

theorem bufferPush_space (space : following k.head ≠ k.tail) (inside : k.head.toNat < bufferSize) (c : Int32) :
    ∃ i, place k.head = some i ∧
      bufferPush k c = some { k with buffer := Function.update k.buffer i c, head := following k.head } := by
  have found : place k.head = some ⟨k.head.toNat, inside⟩ := dif_pos inside
  refine ⟨_, found, ?_⟩
  rw [bufferPush, if_neg space, found]
  rfl

theorem mapped_press (plain : k.extended = false) (inside : k.head.toNat < bufferSize) (low : code ≤ 0x58)
    (space : following k.head ≠ k.tail) (mapped : Mapped code) : Pushes k code (characterOf k.shiftHeld k.capsOn code) := by
  obtain ⟨agree, apart⟩ := maps_agree low
  obtain ⟨notShift, notCaps⟩ := apart mapped
  have nonzero : ¬ (if k.shiftHeld then keymapShift else keymap).getD code.toNat 0 = 0 := by
    split
    next => exact fun zero => mapped (agree.mpr zero)
    next => exact mapped
  obtain ⟨i, found, pushed⟩ := bufferPush_space space inside (Int32.ofNat (characterOf k.shiftHeld k.capsOn code).toNat)
  refine ⟨i, found, ?_⟩
  rw [press_callback plain low, if_neg notShift, if_neg notCaps, if_neg nonzero, pushed]

theorem Pushes.unique {c d : UInt8} (first : Pushes k code c) (second : Pushes k code d) : c = d := by
  obtain ⟨i, found, pushed⟩ := first
  obtain ⟨j, found', pushed'⟩ := second
  cases found.symm.trans found'
  have buffers := congrArg (fun k => (k.map Keyboard.buffer).map (· i)) (pushed.symm.trans pushed')
  simp only [Option.map_some, Function.update_self, Option.some.injEq] at buffers
  have numbers := congrArg Int32.toInt buffers
  have small := c.toNat_lt
  have small' := d.toNat_lt
  rw [Int32.toInt_ofNat_of_lt (by omega), Int32.toInt_ofNat_of_lt (by omega)] at numbers
  exact UInt8.toNat_inj.mp (Int.natCast_inj.mp numbers)

end Decoder

/-- The flag stands for the two shift keys, less one that was left down alone. -/
structure Decoded (s : TypedKeys) : Prop where
  plain : s.keyboard.extended = false
  caps : s.keyboard.capsOn = s.caps
  shift : s.keyboard.shiftHeld = (s.shiftDown && !s.orphaned)
  head : s.keyboard.head.toNat < bufferSize
  tail : s.keyboard.tail.toNat < bufferSize

theorem start_decoded (k : Keyboard) : Decoded (TypedKeys.start k) where
  plain := rfl
  caps := rfl
  shift := rfl
  head := Nat.zero_lt_succ 127
  tail := Nat.zero_lt_succ 127

/-- A press is decoded as the keys say unless it is mistaken. -/
theorem Decoded.follows_iff (decoded : Decoded s) (low : code ≤ 0x58)
    (space : following s.keyboard.head ≠ s.keyboard.tail) : FollowsShift s code ↔ ¬ Mistaken s code := by
  have press := fun mapped => mapped_press decoded.plain decoded.head low space mapped
  rw [decoded.caps, decoded.shift] at press
  constructor
  · rintro follows ⟨differ, down, orphaned⟩
    have mapped : Mapped code := fun zero => differ (zero.trans ((maps_agree low).1.mp zero).symm)
    have same := characterOf_inj ((press mapped).unique (follows mapped))
    rw [down, orphaned] at same
    exact differ same
  · intro right mapped
    suffices same : characterOf (s.shiftDown && !s.orphaned) s.caps code = characterOf s.shiftDown s.caps code by
      rw [← same]
      exact press mapped
    by_cases differ : keymap.getD code.toNat 0 = keymapShift.getD code.toNat 0
    · have either : ∀ shift : Bool, (if shift then keymapShift else keymap).getD code.toNat 0 = keymap.getD code.toNat 0 := by
        intro shift
        cases shift with
        | false => rfl
        | true => exact differ.symm
      simp only [characterOf, either]
    · cases down : s.shiftDown with
      | false => rfl
      | true =>
        cases orphaned : s.orphaned with
        | false => rfl
        | true => exact absurd ⟨differ, down, orphaned⟩ right

theorem isShift_iff : isShift code = true ↔ code = 0x2A ∨ code = 0x36 := by
  simp [isShift]

/-- The other keys leave the two shift keys as they are. -/
theorem update_shifts (other : ¬ isShift code) (down : UInt8 → Bool) (pressed : Bool) :
    (Function.update down code pressed 0x2A || Function.update down code pressed 0x36) = (down 0x2A || down 0x36) := by
  obtain ⟨left, right⟩ := not_or.mp (mt isShift_iff.mpr other)
  rw [Function.update_of_ne (Ne.symm left), Function.update_of_ne (Ne.symm right)]

theorem following_inside (i : UInt32) : (following i).toNat < bufferSize := by
  rw [following_toNat]
  exact Nat.mod_lt _ (Nat.zero_lt_succ 127)

theorem Decoded.press (decoded : Decoded s) (low : code ≤ 0x58) (space : following s.keyboard.head ≠ s.keyboard.tail) :
    ∃ after, (KeyEvent.press code).step s = some after ∧ Decoded after := by
  simp only [KeyEvent.step, press_callback decoded.plain low]
  by_cases shift : isShift code = true
  · rw [if_pos shift]
    refine ⟨_, rfl, decoded.plain, ?_, ?_, decoded.head, decoded.tail⟩
    · rcases isShift_iff.mp shift with rfl | rfl <;> exact decoded.caps
    · rcases isShift_iff.mp shift with rfl | rfl <;> simp [TypedKeys.shiftDown, isShift]
  rw [if_neg shift]
  have flag : s.keyboard.shiftHeld = ((Function.update s.down code true 0x2A || Function.update s.down code true 0x36) &&
      !(!isShift code && s.orphaned)) := by
    have plain : isShift code = false := Bool.eq_false_iff.mpr shift
    rw [update_shifts shift, plain]
    exact decoded.shift
  by_cases lock : code = 0x3A
  · rw [if_pos lock]
    refine ⟨_, rfl, decoded.plain, ?_, flag, decoded.head, decoded.tail⟩
    simp only [if_pos lock, decoded.caps]
  rw [if_neg lock]
  by_cases unmapped : (if s.keyboard.shiftHeld then keymapShift else keymap).getD code.toNat 0 = 0
  · rw [if_pos unmapped]
    refine ⟨_, rfl, decoded.plain, ?_, flag, decoded.head, decoded.tail⟩
    simp only [if_neg lock, decoded.caps]
  · obtain ⟨i, _, pushed⟩ := bufferPush_space space decoded.head
      (Int32.ofNat (characterOf s.keyboard.shiftHeld s.keyboard.capsOn code).toNat)
    rw [if_neg unmapped, pushed]
    refine ⟨_, rfl, decoded.plain, ?_, flag, following_inside _, decoded.tail⟩
    simp only [if_neg lock, decoded.caps]

theorem Decoded.release (decoded : Decoded s) (low : code ≤ 0x58) :
    ∃ after, (KeyEvent.release code).step s = some after ∧ Decoded after := by
  simp only [KeyEvent.step, release_callback decoded.plain low]
  by_cases shift : isShift code = true
  · simp only [if_pos shift]
    refine ⟨_, rfl, decoded.plain, decoded.caps, ?_, decoded.head, decoded.tail⟩
    exact (Bool.and_not_self _).symm
  · simp only [if_neg shift]
    refine ⟨_, rfl, decoded.plain, decoded.caps, ?_, decoded.head, decoded.tail⟩
    simp only [TypedKeys.shiftDown, update_shifts shift]
    exact decoded.shift

theorem Decoded.read (decoded : Decoded s) : ∃ after, KeyEvent.read.step s = some after ∧ Decoded after := by
  simp only [KeyEvent.step, keyboardGetchar]
  split
  next => exact ⟨s, rfl, decoded⟩
  next =>
    have found : place s.keyboard.tail = some ⟨s.keyboard.tail.toNat, decoded.tail⟩ := dif_pos decoded.tail
    rw [found]
    exact ⟨_, rfl, decoded.plain, decoded.caps, decoded.shift, decoded.head, following_inside _⟩

theorem Decoded.step (decoded : Decoded s) {event : KeyEvent} (possible : event.Possible s) :
    ∃ after, event.step s = some after ∧ Decoded after := by
  cases event with
  | press code => exact decoded.press possible.2.1 possible.2.2
  | release code => exact decoded.release possible.2.1
  | read => exact decoded.read

theorem Decoded.run (decoded : Decoded s) (possible : Possible s events) :
    (∃ after, runEvents s events = some after) ∧
      (EveryPress FollowsShift s events ↔ EveryPress (fun s code => ¬ Mistaken s code) s events) := by
  induction events generalizing s with
  | nil => exact ⟨⟨s, rfl⟩, Iff.rfl⟩
  | cons event rest ih =>
    obtain ⟨here, later⟩ := possible
    obtain ⟨middle, done, kept⟩ := decoded.step here
    obtain ⟨⟨after, ran⟩, _⟩ := ih kept (later middle done)
    refine ⟨⟨after, ?_⟩, and_congr (forall_congr' fun code => ?_) (forall_congr' fun next => ?_)⟩
    · rw [runEvents, List.foldlM_cons, done]
      exact ran
    · apply imp_congr_right
      rintro rfl
      exact decoded.follows_iff here.2.1 here.2.2
    · apply imp_congr_right
      intro same
      cases done.symm.trans same
      exact (ih kept (later middle done)).2

/-- Whatever is typed, every press is decoded as the shift keys stand if and only if none
comes to a key with two characters after one shift was let go and while the other, held all
along, is still down. -/
theorem shift_follows_keys_iff (k : Keyboard) (possible : Possible (TypedKeys.start k) events) :
    (∃ after, runEvents (TypedKeys.start k) events = some after) ∧
      (EveryPress FollowsShift (TypedKeys.start k) events ↔
        EveryPress (fun s code => ¬ Mistaken s code) (TypedKeys.start k) events) :=
  (start_decoded k).run possible

/-- Both shifts go down and the first comes up again: A is then typed without shift. -/
theorem other_shift_missed :
    Possible (TypedKeys.start ⟨fun _ => 0, 0, 0, false, false, false⟩)
      [.press 0x2A, .press 0x36, .release 0x2A, .press 0x1E] ∧
    ¬ EveryPress FollowsShift (TypedKeys.start ⟨fun _ => 0, 0, 0, false, false, false⟩)
      [.press 0x2A, .press 0x36, .release 0x2A, .press 0x1E] := by
  have possible : Possible (TypedKeys.start ⟨fun _ => 0, 0, 0, false, false, false⟩)
      [.press 0x2A, .press 0x36, .release 0x2A, .press 0x1E] := by decide +kernel
  refine ⟨possible, ?_⟩
  rw [((start_decoded _).run possible).2]
  intro right
  have last := (((right.2 _ rfl).2 _ rfl).2 _ rfl).1 0x1E rfl
  exact last ⟨by decide, rfl, rfl⟩

theorem shift_follows_keys_iff_of_both :
    (∃ after, runEvents (TypedKeys.start ⟨fun _ => 0, 0, 0, false, false, false⟩)
        [.press 0x2A, .press 0x1E, .release 0x2A, .press 0x1E] = some after) ∧
      (EveryPress FollowsShift (TypedKeys.start ⟨fun _ => 0, 0, 0, false, false, false⟩)
          [.press 0x2A, .press 0x1E, .release 0x2A, .press 0x1E] ↔
        EveryPress (fun s code => ¬ Mistaken s code) (TypedKeys.start ⟨fun _ => 0, 0, 0, false, false, false⟩)
          [.press 0x2A, .press 0x1E, .release 0x2A, .press 0x1E]) := by
  apply shift_follows_keys_iff
  decide +kernel

end Seaweed
