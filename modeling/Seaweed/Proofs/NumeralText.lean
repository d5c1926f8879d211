import Seaweed.Numerals
import Seaweed.Library.Decimal
import Seaweed.Library.Reversal

/-! What `utoa` and `itoa` write. The digits go into the buffer lowest first, and the loop
that swaps the ends turns them into the numeral. -/

namespace Seaweed
open Library

variable {n base value : ℕ} {buffer : Buffer n} {text : List UInt8}

section Numerals

/-- The value of one of `0-9a-f`. -/
def digitValue (c : UInt8) : Option ℕ :=
  if 48 ≤ c ∧ c ≤ 57 then some (c.toNat - 48)
  else if 97 ≤ c ∧ c ≤ 102 then some (c.toNat - 87)
  else none

/-- The one way to write a value in a base. -/
structure Numeral (base number : ℕ) (text : List UInt8) : Prop where
  digits : ∀ c ∈ text, ∃ digit, digitValue c = some digit ∧ digit < base
  value : accumulate base 0 (text.map fun c => (digitValue c).getD 0) = number
  leading : number ≠ 0 → ∃ c rest, text = c :: rest ∧ c ≠ 48
  zero : number = 0 → text = [48]

def digitChar (digit : ℕ) : UInt8 := digits.bytes.getD digit 0

theorem digitChar_spec {digit : ℕ} (small : digit < 16) :
    digits.bytes[digit]? = some (digitChar digit) ∧ digitValue (digitChar digit) = some digit ∧
      (digitChar digit = 48 ↔ digit = 0) := by
  interval_cases digit <;> decide

def numeralText (base value : ℕ) : List UInt8 :=
  if value = 0 then [48] else ((Nat.digits base value).map digitChar).reverse

theorem numeral_digit (lower : 2 ≤ base) (upper : base ≤ 16) :
    ∀ c ∈ numeralText base value, ∃ digit, digitValue c = some digit ∧ digit < base := by
  intro c member
  unfold numeralText at member
  split at member
  next =>
    rw [List.mem_singleton] at member
    subst member
    exact ⟨0, rfl, by omega⟩
  next =>
    obtain ⟨digit, inside, rfl⟩ := List.mem_map.mp (List.mem_reverse.mp member)
    have small := Nat.digits_lt_base lower inside
    exact ⟨digit, (digitChar_spec (by omega)).2.1, small⟩

theorem numeral_value (lower : 2 ≤ base) (upper : base ≤ 16) (value : ℕ) :
    accumulate base 0 ((numeralText base value).map fun c => (digitValue c).getD 0) = value := by
  unfold numeralText
  split
  next zero =>
    subst zero
    exact Nat.zero_mul base
  next =>
    have back : (Nat.digits base value).map ((fun c => (digitValue c).getD 0) ∘ digitChar) = Nat.digits base value := by
      conv_rhs => rw [← List.map_id (Nat.digits base value)]
      apply List.map_congr_left
      intro digit inside
      have small := Nat.digits_lt_base lower inside
      rw [Function.comp_apply, (digitChar_spec (by omega)).2.1]
      rfl
    rw [List.map_reverse, List.map_map, back, accumulate_zero, List.reverse_reverse, Nat.ofDigits_digits]

theorem numeral_leading (lower : 2 ≤ base) (upper : base ≤ 16) (nonzero : value ≠ 0) :
    ∃ c rest, numeralText base value = c :: rest ∧ c ≠ 48 := by
  have nonempty : Nat.digits base value ≠ [] := Nat.digits_ne_nil_iff_ne_zero.mpr nonzero
  have last := Nat.getLast_digit_ne_zero base nonzero
  have small := Nat.digits_lt_base lower (List.getLast_mem nonempty)
  refine ⟨digitChar ((Nat.digits base value).getLast nonempty), ((Nat.digits base value).dropLast.map digitChar).reverse, ?_, ?_⟩
  · have parts := List.dropLast_append_getLast nonempty
    rw [numeralText, if_neg nonzero]
    nth_rewrite 1 [← parts]
    rw [List.map_append, List.reverse_append]
    rfl
  · exact mt (digitChar_spec (by omega)).2.2.mp last

theorem numeral_canonical (lower : 2 ≤ base) (upper : base ≤ 16) (value : ℕ) : Numeral base value (numeralText base value) where
  digits := numeral_digit lower upper
  value := numeral_value lower upper value
  leading := numeral_leading lower upper
  zero := fun zero => if_pos zero

theorem Numeral.terminated (numeral : Numeral base value text) : 0 ∉ text := by
  intro member
  obtain ⟨digit, found, _⟩ := numeral.digits 0 member
  cases found

theorem numeral_length (lower : 2 ≤ base) {k : ℕ} (positive : 0 < k) (small : value < base ^ k) :
    (numeralText base value).length ≤ k := by
  unfold numeralText
  split
  next => exact positive
  next =>
    rw [List.length_reverse, List.length_map]
    exact (Nat.digits_length_le_iff lower value).mpr small

end Numerals

section Loops

theorem store_eq {i : ℕ} (inside : i < n) (c : UInt8) : buffer.store i c = some (Function.update buffer ⟨i, inside⟩ c) :=
  dif_pos inside

theorem load_eq {i : ℕ} (inside : i < n) : buffer.load i = some (buffer ⟨i, inside⟩) := dif_pos inside

theorem overlay_nil (buffer : Buffer n) (offset : ℕ) : overlay buffer offset [] = buffer := by
  funext i
  exact if_neg fun both => by simp at both; omega

theorem utoaDigits_eq {base value : UInt32} {turns length : ℕ} (lower : 2 ≤ base.toNat) (upper : base.toNat ≤ 16)
    (enough : (Nat.digits base.toNat value.toNat).length < turns)
    (room : length + (Nat.digits base.toNat value.toNat).length ≤ n) :
    utoaDigits base turns value length buffer = some (length + (Nat.digits base.toNat value.toNat).length,
      overlay buffer length ((Nat.digits base.toNat value.toNat).map digitChar)) := by
  induction turns generalizing value length buffer with
  | zero => exact absurd enough (Nat.not_lt_zero _)
  | succ turns ih =>
    rw [utoaDigits]
    by_cases zero : value = 0
    · have none : Nat.digits base.toNat value.toNat = [] := by
        rw [zero]
        exact Nat.digits_zero _
      rw [if_pos zero, none, List.map_nil, overlay_nil]
      rfl
    · have positive : 0 < value.toNat := by
        apply Nat.pos_of_ne_zero
        exact fun same => zero (UInt32.toNat_inj.mp same)
      have next := Nat.digits_def' lower positive
      rw [← UInt32.toNat_div, ← UInt32.toNat_mod] at next
      rw [next, List.length_cons] at enough room
      have digit : (value % base).toNat < 16 := by
        rw [UInt32.toNat_mod]
        have := Nat.mod_lt value.toNat (show 0 < base.toNat by omega)
        omega
      have inside : length < n := by omega
      have rest : utoaDigits base turns (value / base) (length + 1)
          (Function.update buffer ⟨length, inside⟩ (digitChar (value % base).toNat)) = _ := ih (by omega) (by omega)
      rw [overlay_cons] at rest
      rw [if_neg zero, (digitChar_spec digit).1, next, List.map_cons, List.length_cons]
      simp only [Option.bind_eq_bind, Option.bind_some, store_eq inside, rest]
      rw [Nat.add_assoc, Nat.add_comm 1]

theorem swapEnds_turned {length i : ℕ} (fits : length ≤ n) (buffer : Buffer n) (inner : i < length / 2) :
    swapEnds length i (turned fits buffer i) = some (turned fits buffer (i + 1)) := by
  have low : i < n := by omega
  have high : length - 1 - i < n := by omega
  simp only [swapEnds, load_eq low, load_eq high, store_eq low, store_eq high, Option.bind_eq_bind, Option.bind_some]
  exact congrArg some (turned_succ fits buffer rfl rfl inner)

theorem overlay_store (cs : List UInt8) (inside : cs.length < n) (c : UInt8) :
    (overlay buffer 0 cs).store cs.length c = some (overlay buffer 0 (cs ++ [c])) := by
  rw [store_eq inside]
  congr 1
  funext i
  by_cases last : i = ⟨cs.length, inside⟩
  · subst last
    rw [Function.update_self, overlay, if_pos (by simp)]
    simp
  · have apart : (i : ℕ) ≠ cs.length := fun same => last (Fin.ext same)
    rw [Function.update_of_ne last, overlay, overlay]
    simp only [List.length_append, List.length_singleton, Nat.sub_zero]
    by_cases before : (i : ℕ) < cs.length
    · rw [if_pos (by omega), if_pos (by omega), List.getD_append _ _ _ _ before]
    · rw [if_neg (by omega), if_neg (by omega)]

theorem overlay_reversed (cs : List UInt8) (fits : cs.length < n) :
    forCount (swapEnds cs.length) 0 (cs.length / 2) (overlay buffer 0 (cs ++ [0])) =
      some (overlay buffer 0 (cs.reverse ++ [0])) := by
  have turns := forCount_eq (swapEnds cs.length) (turned (Nat.le_of_lt fits) (overlay buffer 0 (cs ++ [0]))) 0
    (cs.length / 2) fun i _ inner => swapEnds_turned _ _ (by omega)
  rw [turned_zero, Nat.zero_add, turned_half] at turns
  rw [turns]
  congr 1
  funext j
  simp only [overlay, mirror, List.length_append, List.length_reverse, List.length_singleton, Nat.sub_zero]
  by_cases inside : (j : ℕ) < cs.length
  · have opposite : cs.length - 1 - j < cs.length := by omega
    have here : (j : ℕ) < cs.reverse.length := by rwa [List.length_reverse]
    rw [if_pos inside, if_pos (by omega), if_pos (by omega), List.getD_append _ _ _ _ opposite,
      List.getD_append _ _ _ _ here, List.getD_eq_getElem _ _ opposite, List.getD_eq_getElem _ _ here,
      List.getElem_reverse]
  · rw [if_neg inside]
    by_cases last : (j : ℕ) = cs.length
    · rw [if_pos (by omega), if_pos (by omega), last]
      simp [List.getD]
    · rw [if_neg (by omega), if_neg (by omega)]

theorem utoa_eq {value : UInt32} (lower : 2 ≤ base) (upper : base ≤ 16) (room : (numeralText base value.toNat).length < n) :
    utoa value buffer (Int32.ofNat base) = some (overlay buffer 0 (numeralText base value.toNat ++ [0])) := by
  have inRange : ¬ (Int32.ofNat base < 2 ∨ 16 < Int32.ofNat base) := by
    interval_cases base <;> decide
  rw [utoa, if_neg inRange]
  by_cases zero : value = 0
  · have one : numeralText base value.toNat = [48] := by
      subst zero
      rfl
    rw [one] at room ⊢
    rw [if_pos zero]
    have first : buffer.store 0 48 = some (overlay buffer 0 [48]) := by
      have start := @overlay_store n buffer [] (Nat.lt_of_lt_of_le Nat.one_pos (Nat.le_of_lt room)) 48
      rwa [overlay_nil] at start
    rw [first]
    exact overlay_store [48] room 0
  · have positive : value.toNat ≠ 0 := fun same => zero (UInt32.toNat_inj.mp same)
    have same : (UInt32.ofNat base).toNat = base := UInt32.toNat_ofNat_of_lt' (by rw [UInt32.size]; omega)
    have bits : value.toNat < base ^ 32 := by
      have wide := Nat.pow_le_pow_left lower 32
      exact Nat.lt_of_lt_of_le value.toNat_lt wide
    have few := (Nat.digits_length_le_iff lower value.toNat).mpr bits
    rw [numeralText, if_neg positive] at room ⊢
    rw [List.length_reverse, List.length_map] at room
    have written := @utoaDigits_eq n buffer (UInt32.ofNat base) value 33 0 (by omega) (by omega) (by rw [same]; omega)
      (by rw [same]; omega)
    rw [same, Nat.zero_add] at written
    have digits := @overlay_store n buffer ((Nat.digits base value.toNat).map digitChar)
      (by rwa [List.length_map]) 0
    have reversed := @overlay_reversed n buffer ((Nat.digits base value.toNat).map digitChar)
      (by rwa [List.length_map])
    rw [List.length_map] at digits reversed
    rw [if_neg zero]
    simp only [Int32.toUInt32_ofNat', written, digits, Option.bind_eq_bind, Option.bind_some]
    exact reversed

end Loops

/-- Whatever buffer has the room, `utoa` leaves the numeral and its terminator at the start
of it, and nothing else changes. -/
theorem utoa_writes_numeral (lower : 2 ≤ base) (upper : base ≤ 16) :
    ∃ text : UInt32 → CString, Function.Injective text ∧ ∀ value : UInt32,
      Numeral base value.toNat (text value).chars ∧ (text value).bytes.length ≤ 33 ∧
      (base = 10 → (text value).bytes.length ≤ 11) ∧
      ∀ (n : ℕ) (buffer : Buffer n), (text value).bytes.length ≤ n →
        utoa value buffer (Int32.ofNat base) = some (overlay buffer 0 (text value).bytes) := by
  have canonical := fun value : UInt32 => numeral_canonical lower upper value.toNat
  refine ⟨fun value => ⟨numeralText base value.toNat, (canonical value).terminated⟩, ?_, fun value => ?_⟩
  · intro first second same
    apply UInt32.toNat_inj.mp
    have texts : numeralText base first.toNat = numeralText base second.toNat := congrArg CString.chars same
    rw [← (canonical first).value, ← (canonical second).value, texts]
  simp only [CString.bytes, List.length_append, List.length_singleton]
  have small := value.toNat_lt
  refine ⟨canonical value, ?_, fun ten => ?_, fun n buffer room => utoa_eq lower upper room⟩
  · have wide := Nat.pow_le_pow_left lower 32
    have few := numeral_length lower (by decide) (Nat.lt_of_lt_of_le small wide)
    omega
  · subst ten
    have few := numeral_length lower (k := 10) (by decide) (Nat.lt_of_lt_of_le small (by decide))
    omega

theorem utoa_writes_numeral_of_hex :
    ∃ text : UInt32 → CString, Function.Injective text ∧ ∀ value : UInt32,
      Numeral 16 value.toNat (text value).chars ∧ (text value).bytes.length ≤ 33 ∧
      (16 = 10 → (text value).bytes.length ≤ 11) ∧
      ∀ (n : ℕ) (buffer : Buffer n), (text value).bytes.length ≤ n →
        utoa value buffer (Int32.ofNat 16) = some (overlay buffer 0 (text value).bytes) :=
  utoa_writes_numeral (by decide) (by decide)

section Signs

/-- A minus for negative numbers only, and then the numeral of the magnitude. -/
def SignedNumeral (number : Int) (text : List UInt8) : Prop :=
  if number < 0 then ∃ rest, text = 45 :: rest ∧ Numeral 10 number.natAbs rest else Numeral 10 number.natAbs text

/-- In every buffer with the room `itoa` comes to its end and leaves the same numeral. -/
def WritesSigned (value : Int32) : Prop :=
  ∃ text : CString, SignedNumeral value.toInt text.chars ∧ text.bytes.length ≤ 12 ∧
    ∀ (n : ℕ) (buffer : Buffer (n + 1)), text.bytes.length ≤ n + 1 →
      itoa value buffer 10 = some (overlay buffer 0 text.bytes)

theorem itoa_smallest (buffer : Buffer (n + 1)) : itoa Int32.minValue buffer 10 = none := rfl

theorem WritesSigned.ne_smallest {value : Int32} (written : WritesSigned value) : value ≠ Int32.minValue := by
  rintro rfl
  obtain ⟨text, _, _, written⟩ := written
  have done := written text.bytes.length (fun _ => 0) (Nat.le_succ _)
  rw [itoa_smallest] at done
  cases done

theorem smallest_not_written : ¬ WritesSigned Int32.minValue := fun written => written.ne_smallest rfl

theorem overlay_cons_succ (buffer : Buffer (n + 1)) (c : UInt8) (src : List UInt8) :
    (Fin.cons c (overlay (fun i => buffer i.succ) 0 src) : Buffer (n + 1)) = overlay buffer 0 (c :: src) := by
  funext i
  refine Fin.cases ?_ (fun i => ?_) i
  · rfl
  · simp only [Fin.cons_succ, overlay, Fin.val_succ, Nat.sub_zero, List.getD_cons_succ, List.length_cons]
    congr 1
    apply propext
    omega

theorem magnitude_toNat {value : Int32} (negative : value.toInt < 0) (smallest : value ≠ Int32.minValue) :
    (-value).toUInt32.toNat = value.toInt.natAbs := by
  have low := value.le_toInt
  have above : value.toInt ≠ -2 ^ 31 := fun same => smallest (Int32.toInt_inj.mp same)
  have negated : (-value).toInt = -value.toInt := by
    rw [Int32.toInt_neg]
    apply Int.bmod_eq_of_le <;> omega
  have positive : 0 ≤ -value := by
    rw [Int32.le_iff_toInt_le, negated]
    change 0 ≤ -value.toInt
    omega
  rw [Int32.toNat_toUInt32_of_le positive, ← Int32.toNat_toInt, negated]
  omega

theorem itoa_negative {value : Int32} (negative : value.toInt < 0) (smallest : value ≠ Int32.minValue)
    (buffer : Buffer (n + 1)) (room : (numeralText 10 value.toInt.natAbs).length < n) :
    itoa value buffer 10 = some (overlay buffer 0 (45 :: numeralText 10 value.toInt.natAbs ++ [0])) := by
  have sign : (10 : Int32) = 10 ∧ value < 0 := ⟨rfl, Int32.lt_iff_toInt_lt.mpr negative⟩
  have size := magnitude_toNat negative smallest
  rw [← size] at room ⊢
  have written := @utoa_eq n 10 (fun i => buffer i.succ) (-value).toUInt32 (by decide) (by decide) room
  have base : Int32.ofNat 10 = 10 := rfl
  rw [base] at written
  rw [itoa, if_pos sign, negateLong, if_neg smallest]
  simp only [Option.bind_eq_bind, Option.bind_some, written]
  rw [overlay_cons_succ]
  rfl

theorem itoa_positive {value : Int32} (positive : ¬ value.toInt < 0) (buffer : Buffer (n + 1))
    (room : (numeralText 10 value.toInt.natAbs).length < n + 1) :
    itoa value buffer 10 = some (overlay buffer 0 (numeralText 10 value.toInt.natAbs ++ [0])) := by
  have sign : ¬ ((10 : Int32) = 10 ∧ value < 0) := fun both => positive (Int32.lt_iff_toInt_lt.mp both.2)
  have size : value.toUInt32.toNat = value.toInt.natAbs := by
    have above : 0 ≤ value := Int32.le_iff_toInt_le.mpr (Int.not_lt.mp positive)
    rw [Int32.toNat_toUInt32_of_le above, ← Int32.toNat_toInt]
    omega
  rw [← size] at room ⊢
  rw [itoa, if_neg sign]
  exact utoa_eq (by decide) (by decide) room

/-- The smallest number is the one whose negation overflows. -/
theorem itoa_exact_iff (value : Int32) : WritesSigned value ↔ value ≠ Int32.minValue := by
  refine ⟨WritesSigned.ne_smallest, fun smallest => ?_⟩
  have low := value.le_toInt
  have high := value.toInt_lt
  have canonical := @numeral_canonical 10 (by decide) (by decide) value.toInt.natAbs
  have few : (numeralText 10 value.toInt.natAbs).length ≤ 10 := numeral_length (by decide) (by decide) (by omega)
  by_cases negative : value.toInt < 0
  · refine ⟨⟨45 :: numeralText 10 value.toInt.natAbs, ?_⟩, ?_, ?_, fun n buffer room => ?_⟩
    · intro member
      rcases List.mem_cons.mp member with zero | inside
      · cases zero
      · exact canonical.terminated inside
    · rw [SignedNumeral, if_pos negative]
      exact ⟨_, rfl, canonical⟩
    · simp only [CString.bytes, List.length_append, List.length_cons, List.length_nil]
      omega
    · simp only [CString.bytes, List.length_append, List.length_cons, List.length_nil] at room
      exact itoa_negative negative smallest buffer (by omega)
  · refine ⟨⟨numeralText 10 value.toInt.natAbs, canonical.terminated⟩, ?_, ?_, fun n buffer room => ?_⟩
    · rw [SignedNumeral, if_neg negative]
      exact canonical
    · simp only [CString.bytes, List.length_append, List.length_cons, List.length_nil]
      omega
    · simp only [CString.bytes, List.length_append, List.length_cons, List.length_nil] at room
      exact itoa_positive negative buffer (by omega)

end Signs

end Seaweed
