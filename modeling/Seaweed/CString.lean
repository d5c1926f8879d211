import Mathlib

/-! The part of `lib/string.c` that Fish and the user names rely on. A pointer to
`char` is the list of bytes from it to the end of the object it points into, so a
loop that walks off its object runs out of list and answers `none`. -/

namespace Seaweed

/-- A terminated string as a caller hands it over: the bytes before its `'\0'`. It
is never `NULL`, so the `NULL` tests of the sources have no counterpart here. -/
@[ext]
structure CString where
  chars : List UInt8
  terminated : 0 ∉ chars
deriving DecidableEq

def CString.bytes (s : CString) : List UInt8 := s.chars ++ [0]

/-- The string that starts at the head of an object, cut at its first `'\0'`. -/
def CString.ofBytes (bytes : List UInt8) : CString where
  chars := bytes.takeWhile (· != 0)
  terminated := by
    intro member
    simpa using List.mem_takeWhile_imp member

/-- A string literal of the sources, one byte for each of its characters. -/
def literal (text : String) : CString := CString.ofBytes (text.toList.map fun c => UInt8.ofNat c.toNat)

/-- `char` is signed on the target, so a byte from 128 on is negative. -/
def signedChar (c : UInt8) : Int := c.toInt8.toInt

def strcmp : List UInt8 → List UInt8 → Option Int
  | a :: as, b :: bs =>
    if a ≠ 0 ∧ a = b then strcmp as bs else some ((a.toNat : Int) - (b.toNat : Int))
  | _, _ => none

abbrev Buffer (n : Nat) := Fin n → UInt8

def Buffer.bytes {n : Nat} (buffer : Buffer n) : List UInt8 := List.ofFn buffer

/-- Copies byte after byte to `dest + offset`; `none` when a store leaves `dest`. -/
def memcpy {n : Nat} (dest : Buffer n) (offset : Nat) : List UInt8 → Option (Buffer n)
  | [] => some dest
  | c :: rest =>
    if inside : offset < n then memcpy (Function.update dest ⟨offset, inside⟩ c) (offset + 1) rest
    else none

def strcpy {n : Nat} (dest : Buffer n) (src : CString) : Option (Buffer n) :=
  memcpy dest 0 src.bytes

/-- On a terminated field `strcmp` never leaves its operands, and tells whether the
two strings are equal. -/
theorem strcmp_terminated (bytes : List UInt8) (t : CString) (terminated : 0 ∈ bytes) :
    ∃ order, strcmp bytes t.bytes = some order ∧ (order = 0 ↔ CString.ofBytes bytes = t) := by
  obtain ⟨chars, nonzero⟩ := t
  induction bytes generalizing chars with
  | nil => cases terminated
  | cons a rest ih =>
    cases chars with
    | nil =>
      refine ⟨(a.toNat : Int), by simp [CString.bytes, strcmp], ?_⟩
      by_cases zero : a = 0
      · simp [zero, CString.ofBytes]
      · have positive : a.toNat ≠ 0 := fun same => zero (UInt8.toNat_inj.mp same)
        simpa [zero, CString.ofBytes] using positive
    | cons b tail =>
      simp only [List.mem_cons, not_or] at nonzero
      by_cases same : a ≠ 0 ∧ a = b
      · have later : 0 ∈ rest := (List.mem_cons.mp terminated).resolve_left (Ne.symm same.1)
        obtain ⟨order, found, equal⟩ := ih later tail nonzero.2
        refine ⟨order, ?_, ?_⟩
        · simp only [CString.bytes, List.cons_append, strcmp, if_pos same]
          exact found
        · rw [equal]
          simp [CString.ofBytes, same.2, Ne.symm nonzero.1]
      · have differ : a ≠ b := by
          rintro rfl
          exact same ⟨Ne.symm nonzero.1, rfl⟩
        refine ⟨(a.toNat : Int) - b.toNat, ?_, ?_⟩
        · simp only [CString.bytes, List.cons_append, strcmp, if_neg same]
        · have apart : a.toNat ≠ b.toNat := fun equal => differ (UInt8.toNat_inj.mp equal)
          have unequal : CString.ofBytes (a :: rest) ≠ ⟨b :: tail, by simpa using nonzero⟩ := by
            by_cases zero : a = 0 <;> simp [CString.ofBytes, zero, differ]
          exact ⟨fun zero => by omega, fun equal => absurd equal unequal⟩

/-- `dest` with `src` laid over it from `offset` on. -/
def overlay {n : Nat} (dest : Buffer n) (offset : Nat) (src : List UInt8) : Buffer n :=
  fun i => if offset ≤ i ∧ i < offset + src.length then src.getD (i - offset) 0 else dest i

section Copies

variable {n : Nat} (dest : Buffer n) (offset : Nat) (src : List UInt8)

theorem overlay_cons (c : UInt8) (inside : offset < n) :
    overlay (Function.update dest ⟨offset, inside⟩ c) (offset + 1) src = overlay dest offset (c :: src) := by
  funext i
  simp only [overlay, List.length_cons]
  by_cases first : (i : Nat) = offset
  · have here : i = ⟨offset, inside⟩ := Fin.ext first
    subst here
    simp
  · have elsewhere : i ≠ ⟨offset, inside⟩ := fun same => first (congrArg Fin.val same)
    rw [Function.update_of_ne elsewhere]
    by_cases later : offset + 1 ≤ (i : Nat) ∧ (i : Nat) < offset + 1 + src.length
    · obtain ⟨gap, shift⟩ : ∃ gap, (i : Nat) - offset = gap + 1 := ⟨i - offset - 1, by omega⟩
      have back : (i : Nat) - (offset + 1) = gap := by omega
      rw [if_pos later, if_pos (by omega), shift, back]
      rfl
    · rw [if_neg later, if_neg (by omega)]

theorem memcpy_inside (fits : offset + src.length ≤ n) :
    memcpy dest offset src = some (overlay dest offset src) := by
  induction src generalizing dest offset with
  | nil =>
    refine congrArg some (funext fun i => ?_)
    rw [overlay, if_neg (by simp)]
  | cons c rest ih =>
    simp only [List.length_cons] at fits
    have inside : offset < n := by omega
    rw [memcpy, dif_pos inside, ih _ _ (by omega), overlay_cons]

theorem Buffer.bytes_length : dest.bytes.length = n := List.length_ofFn

theorem overlay_bytes (fits : offset + src.length ≤ n) :
    (overlay dest offset src).bytes.take (offset + src.length) = dest.bytes.take offset ++ src := by
  apply List.ext_getElem
  · simp only [List.length_take, Buffer.bytes_length, List.length_append]
    omega
  · intro i inside _
    simp only [List.length_take, Buffer.bytes_length] at inside
    simp only [List.getElem_take, Buffer.bytes, List.getElem_ofFn, overlay]
    by_cases before : i < offset
    · rw [if_neg (by omega), List.getElem_append_left (by simp; omega)]
      simp
    · rw [if_pos (by omega), List.getElem_append_right (by simp; omega)]
      have position : i - (dest.bytes.take offset).length = i - offset := by
        simp only [List.length_take, Buffer.bytes_length]
        omega
      simp only [Buffer.bytes] at position
      simp only [position]
      exact List.getD_eq_getElem _ _ _

end Copies

theorem CString.ofBytes_append (s : CString) (rest : List UInt8) : CString.ofBytes (s.bytes ++ rest) = s := by
  have kept : ∀ c ∈ s.chars, (c != 0) = true := by
    intro c member
    simpa using fun zero : c = 0 => s.terminated (zero ▸ member)
  ext1
  simp [CString.ofBytes, CString.bytes, List.takeWhile_append_of_pos kept]

theorem CString.ofBytes_chars (name : CString) : CString.ofBytes name.chars = name := by
  ext1
  apply List.takeWhile_eq_self_iff.mpr
  intro c member
  simpa using fun zero : c = 0 => name.terminated (zero ▸ member)

/-- A string that fits is copied whole, and the field then reads back as it. -/
theorem strcpy_inside {n : Nat} (dest : Buffer n) (s : CString) (fits : s.chars.length < n) :
    ∃ field, strcpy dest s = some field ∧ 0 ∈ field.bytes ∧ CString.ofBytes field.bytes = s := by
  have room : 0 + s.bytes.length ≤ n := by
    simp only [CString.bytes, List.length_append, List.length_singleton]
    omega
  refine ⟨_, memcpy_inside dest 0 s.bytes room, ?_⟩
  have start := overlay_bytes dest 0 s.bytes room
  simp only [List.take_zero, List.nil_append] at start
  have split := (List.take_append_drop (0 + s.bytes.length) (overlay dest 0 s.bytes).bytes).symm
  rw [start] at split
  rw [split]
  exact ⟨by simp [CString.bytes], CString.ofBytes_append s _⟩

end Seaweed
