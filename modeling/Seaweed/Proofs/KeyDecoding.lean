import Seaweed.Computer
import Seaweed.Proofs.KeyboardQueue

/-! The keyboard as a decoder and a queue of keys: what an interrupt and a call of
`keyboard_getchar` do to the two. -/

namespace Seaweed
open Library

variable {k : Keyboard} {waiting rest : List Int32} {key : Int32}

def Keyboard.decoder (k : Keyboard) : Decoder := ⟨k.shiftHeld, k.capsOn, k.extended⟩

def Keyboard.decoding (k : Keyboard) (d : Decoder) : Keyboard :=
  { k with shiftHeld := d.shift, capsOn := d.caps, extended := d.extended }

@[simp] theorem Keyboard.decoding_decoder (k : Keyboard) (d : Decoder) : (k.decoding d).decoder = d := rfl

theorem keyboardCallback_feed (k : Keyboard) (byte : UInt8) :
    keyboardCallback k byte =
      (k.decoder.feed byte).2.elim (some (k.decoding (k.decoder.feed byte).1)) (bufferPush (k.decoding (k.decoder.feed byte).1)) := by
  have high : byte &&& 0x80 = 0 → ¬ 128 ≤ byte := by
    intro clear large
    have bit : ∀ n < 256, 128 ≤ UInt8.ofNat n → UInt8.ofNat n &&& 0x80 ≠ 0 := by decide +kernel
    have some := bit byte.toNat byte.toNat_lt
    rw [UInt8.ofNat_toNat] at some
    exact some large clear
  unfold keyboardCallback Decoder.feed
  by_cases prefixed : byte = 0xE0
  · rw [if_pos prefixed, if_pos prefixed]
    rfl
  rw [if_neg prefixed, if_neg prefixed]
  by_cases extended : k.extended = true
  · have extended' : k.decoder.extended = true := extended
    rw [if_pos extended, if_pos extended']
    by_cases released : byte &&& 0x80 ≠ 0
    · simp only [if_pos released]
      rfl
    · simp only [if_neg released]
      cases extendedKey byte <;> rfl
  have extended' : ¬ k.decoder.extended = true := extended
  rw [if_neg extended, if_neg extended']
  by_cases released : byte &&& 0x80 ≠ 0
  · rw [if_pos released, if_pos released]
    by_cases shift : byte &&& 0x7F = 0x2A ∨ byte &&& 0x7F = 0x36
    · rw [if_pos shift, if_pos shift]
      rfl
    · rw [if_neg shift, if_neg shift]
      rfl
  rw [if_neg released, if_neg released]
  by_cases shift : byte = 0x2A ∨ byte = 0x36
  · rw [if_pos shift, if_pos shift]
    rfl
  rw [if_neg shift, if_neg shift]
  by_cases caps : byte = 0x3A
  · rw [if_pos caps, if_pos caps]
    rfl
  rw [if_neg caps, if_neg caps, if_neg (high (not_not.mp released))]
  have shiftHeld : k.decoder.shift = k.shiftHeld := rfl
  have capsOn : k.decoder.caps = k.capsOn := rfl
  simp only [shiftHeld, capsOn]
  by_cases unmapped : (if k.shiftHeld = true then keymapShift else keymap).getD byte.toNat 0 = 0
  · rw [if_pos unmapped, if_pos unmapped]
    rfl
  · rw [if_neg unmapped, if_neg unmapped]
    rfl

/-- The keys that are in the buffer, the next one first. -/
def Waits (k : Keyboard) (waiting : List Int32) : Prop :=
  ∃ history released, Ring k.buffer history released ∧ history.drop released = waiting ∧
    k.head.toNat = history.length % bufferSize ∧ k.tail.toNat = released % bufferSize

namespace Waits

theorem init (k : Keyboard) : Waits (keyboardInit k) [] := ⟨[], 0, .empty _, rfl, rfl, rfl⟩

theorem decoding (waits : Waits k waiting) (d : Decoder) : Waits (k.decoding d) waiting := waits

theorem short (waits : Waits k waiting) : waiting.length ≤ 127 := by
  obtain ⟨history, released, ring, rfl, _, _⟩ := waits
  have room : history.length < released + 128 := ring.room
  rw [List.length_drop]
  omega

/-- A key goes behind the others, and is dropped when 127 wait. -/
theorem push (waits : Waits k waiting) (key : Int32) :
    ∃ after, bufferPush k key = some after ∧ Waits after (Computer.queue waiting (some key)) ∧ after.decoder = k.decoder := by
  obtain ⟨history, released, ring, rfl, head, tail⟩ := waits
  have full : following k.head = k.tail ↔ history.length + 1 = released + bufferSize := by
    rw [← ring.full_iff, ← UInt32.toNat_inj, following_toNat, head, tail, Nat.mod_add_mod]
  have ahead := ring.ahead
  have room : history.length < released + 128 := ring.room
  unfold Computer.queue bufferPush
  by_cases last : following k.head = k.tail
  · have many : ¬ (history.drop released).length < 127 := by
      have := full.mp last
      rw [List.length_drop]
      simp only [bufferSize] at this
      omega
    simp only [if_pos last, if_neg many]
    exact ⟨k, rfl, ⟨history, released, ring, rfl, head, tail⟩, rfl⟩
  · have space : history.length + 1 < released + bufferSize := by
      have := mt full.mpr last
      simp only [bufferSize] at this ⊢
      omega
    have few : (history.drop released).length < 127 := by
      rw [List.length_drop]
      simp only [bufferSize] at space
      omega
    simp only [if_neg last, if_pos few, place_eq head, Option.bind_eq_bind, Option.bind_some]
    refine ⟨_, rfl, ⟨history ++ [key], released, ring.push space key, ?_, ?_, tail⟩, rfl⟩
    · exact List.drop_append_of_le_length ahead
    · rw [following_toNat, head, Nat.mod_add_mod, List.length_append, List.length_singleton]

theorem getchar_none (waits : Waits k []) : keyboardGetchar k = some (0, k) := by
  obtain ⟨history, released, ring, empty, head, tail⟩ := waits
  have same : history.length = released := Nat.le_antisymm (List.drop_eq_nil_iff.mp empty) ring.ahead
  have equal : k.head = k.tail := by
    rw [← UInt32.toNat_inj, head, tail, same]
  rw [keyboardGetchar, if_pos equal]

theorem getchar_some (waits : Waits k (key :: rest)) :
    ∃ after, keyboardGetchar k = some (key, after) ∧ Waits after rest ∧ after.decoder = k.decoder := by
  obtain ⟨history, released, ring, drop, head, tail⟩ := waits
  have first : history[released]? = some key := by
    rw [← List.head?_drop, drop]
    rfl
  have inside : released < history.length := (List.getElem?_eq_some_iff.mp first).1
  have more : ¬ k.head = k.tail := by
    rw [← UInt32.toNat_inj, head, tail, ring.empty_iff]
    omega
  rw [keyboardGetchar, if_neg more, place_eq tail, Option.bind_eq_bind, Option.bind_some,
    ring.kept released key (Nat.le_refl released) first]
  refine ⟨_, rfl, ⟨history, released + 1, ring.pop inside, ?_, head, ?_⟩, rfl⟩
  · rw [← List.tail_drop, drop]
    rfl
  · rw [following_toNat, tail, Nat.mod_add_mod]

/-- A byte from the keyboard does to the decoder and the queue what it should. -/
theorem scancode (waits : Waits k waiting) (byte : UInt8) :
    ∃ after, keyboardCallback k byte = some after ∧ Waits after (Computer.queue waiting (k.decoder.feed byte).2) ∧
      after.decoder = (k.decoder.feed byte).1 := by
  rw [keyboardCallback_feed]
  cases pushed : (k.decoder.feed byte).2 with
  | none => exact ⟨_, rfl, waits.decoding _, rfl⟩
  | some key => exact (waits.decoding _).push key

end Waits

section Strokes

/-- The keys that a row of bytes completes. -/
def Decoder.keys (d : Decoder) : List UInt8 → Decoder × List Int32
  | [] => (d, [])
  | byte :: rest =>
    let (next, key) := d.feed byte
    let (after, keys) := next.keys rest
    (after, key.toList ++ keys)

theorem Decoder.keys_cons (d : Decoder) (byte : UInt8) (rest : List UInt8) :
    d.keys (byte :: rest) = (((d.feed byte).1.keys rest).1, (d.feed byte).2.toList ++ ((d.feed byte).1.keys rest).2) := rfl

theorem Decoder.keys_append (d : Decoder) (first rest : List UInt8) :
    d.keys (first ++ rest) = (((d.keys first).1.keys rest).1, (d.keys first).2 ++ ((d.keys first).1.keys rest).2) := by
  induction first generalizing d with
  | nil => rfl
  | cons byte first ih => simp only [List.cons_append, Decoder.keys_cons, ih, List.append_assoc]

/-- A character's key down and up again, with the left Shift around it when the character needs it. -/
def stroke (letter : UInt8) : List UInt8 :=
  match keymap.idxOf? letter with
  | some i => [UInt8.ofNat i, UInt8.ofNat i ||| 0x80]
  | none =>
    match keymapShift.idxOf? letter with
    | some i => [0x2A, UInt8.ofNat i, UInt8.ofNat i ||| 0x80, 0xAA]
    | none => []

theorem stroke_keys {letter : UInt8} (low : 32 ≤ letter) (high : letter ≤ 126) :
    Decoder.start.keys (stroke letter) = (.start, [Int32.ofNat letter.toNat]) := by
  have each : ∀ n < 256, 32 ≤ UInt8.ofNat n → UInt8.ofNat n ≤ 126 →
      Decoder.start.keys (stroke (UInt8.ofNat n)) = (.start, [Int32.ofNat (UInt8.ofNat n).toNat]) := by decide +kernel
  have all := each letter.toNat letter.toNat_lt
  rw [UInt8.ofNat_toNat] at all
  exact all low high

theorem strokes_keys {text : List UInt8} (printable : ∀ letter ∈ text, 32 ≤ letter ∧ letter ≤ 126) :
    Decoder.start.keys (text.flatMap stroke) = (.start, text.map fun letter => Int32.ofNat letter.toNat) := by
  induction text with
  | nil => rfl
  | cons letter text ih =>
    obtain ⟨low, high⟩ := printable letter List.mem_cons_self
    have rest := ih fun other member => printable other (List.mem_cons_of_mem _ member)
    rw [List.flatMap_cons, Decoder.keys_append, stroke_keys low high]
    simp only [rest]
    rfl

theorem printable_key {letter : UInt8} (low : 32 ≤ letter) (high : letter ≤ 126) :
    Int32.ofNat letter.toNat ≠ 8 ∧ Int32.ofNat letter.toNat ≠ 10 ∧ 32 ≤ Int32.ofNat letter.toNat ∧
      Int32.ofNat letter.toNat ≤ 255 ∧ (Int32.ofNat letter.toNat).toUInt32.toUInt8 = letter := by
  have each : ∀ n < 256, 32 ≤ UInt8.ofNat n → UInt8.ofNat n ≤ 126 → Int32.ofNat (UInt8.ofNat n).toNat ≠ 8 ∧
      Int32.ofNat (UInt8.ofNat n).toNat ≠ 10 ∧ 32 ≤ Int32.ofNat (UInt8.ofNat n).toNat ∧
      Int32.ofNat (UInt8.ofNat n).toNat ≤ 255 ∧
      (Int32.ofNat (UInt8.ofNat n).toNat).toUInt32.toUInt8 = UInt8.ofNat n := by decide +kernel
  have all := each letter.toNat letter.toNat_lt
  rw [UInt8.ofNat_toNat] at all
  exact all low high

/-- A printable character is held as itself. -/
theorem editKey_printable {held : List UInt8} {letter : UInt8} (low : 32 ≤ letter) (high : letter ≤ 126)
    (short : held.length < 255) : editKey held (Int32.ofNat letter.toNat) = held ++ [letter] := by
  obtain ⟨other, _, lower, upper, back⟩ := printable_key low high
  rw [editKey, if_neg other, if_pos ⟨lower, upper, short⟩, back]

/-- A line and Enter, with the turns that take the keys. -/
def typeLine (text : String) : List Input :=
  ((literal text).chars.flatMap stroke ++ [0x1C, 0x9C]).map .scancode ++ List.replicate ((literal text).chars.length + 1) .poll

end Strokes
end Seaweed
