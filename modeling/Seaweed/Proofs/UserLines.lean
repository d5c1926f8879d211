import Seaweed.User

/-! How `user_load` reads lines: bytes are collected up to a newline or the end of the
file, 31 of them at most, and what was collected of the first two lines is taken. -/

namespace Seaweed
open Library

variable {data : Buffer fishFileMax} {size line : ℕ} {chars rest field content : List UInt8} {u : Users}

/-- The loop of `user_load` over the bytes that are left. -/
def scanText : List UInt8 → List UInt8 → ℕ → Users → Users
  | [], field, line, u => takeLine u line field
  | c :: rest, field, line, u =>
    if c ≠ 10 then scanText rest (if field.length < 31 then field ++ [c] else field) line u
    else if 1 < line + 1 then takeLine u line field
    else scanText rest [] (line + 1) (takeLine u line field)

theorem scanLines_end (field : List UInt8) (line : ℕ) (u : Users) :
    scanLines data size 1 size field line u = .ok (takeLine u line field) := by
  rw [scanLines, if_pos rfl, ok_bind]
  refine (if_neg (not_not_intro rfl)).trans ?_
  split <;> rfl

theorem scanLines_byte {i left : ℕ} (early : i < size) (inside : i < fishFileMax) (field : List UInt8) (line : ℕ) (u : Users) :
    scanLines data size (left + 1) i field line u =
      if data ⟨i, inside⟩ ≠ 10 then
        scanLines data size left (i + 1) (if field.length < 31 then field ++ [data ⟨i, inside⟩] else field) line u
      else if 1 < line + 1 then .ok (takeLine u line field)
      else scanLines data size left (i + 1) [] (line + 1) (takeLine u line field) := by
  rw [scanLines, if_neg (Nat.ne_of_lt early), dif_pos inside, ok_bind]

theorem Buffer.take_drop {i : ℕ} (early : i < size) (inside : i < fishFileMax) :
    (data.bytes.take size).drop i = data ⟨i, inside⟩ :: (data.bytes.take size).drop (i + 1) := by
  have bound : i < (data.bytes.take size).length := by
    rw [List.length_take, Buffer.bytes_length]
    omega
  rw [List.drop_eq_getElem_cons bound, List.getElem_take]
  simp only [Buffer.bytes, List.getElem_ofFn]

/-- A real size keeps the loop inside the file. -/
theorem scanLines_eq (short : size ≤ fishFileMax) (left i : ℕ) (place : i + left = size) (field : List UInt8)
    (line : ℕ) (u : Users) :
    scanLines data size (left + 1) i field line u = .ok (scanText ((data.bytes.take size).drop i) field line u) := by
  induction left generalizing i field line u with
  | zero =>
    have ended : (data.bytes.take size).drop i = [] := by
      apply List.drop_eq_nil_of_le
      rw [List.length_take, Buffer.bytes_length]
      omega
    rw [ended, scanText, ← place]
    exact scanLines_end field line u
  | succ left ih =>
    have inside : i < fishFileMax := by omega
    have next := ih (i + 1) (by omega)
    rw [scanLines_byte (by omega) inside, Buffer.take_drop (by omega) inside, scanText]
    split
    next => exact next _ _ _
    next =>
      split
      next => rfl
      next => exact next _ _ _

theorem scanLines_whole (short : size ≤ fishFileMax) (u : Users) :
    scanLines data size (size + 1) 0 [] 0 u = .ok (scanText (data.bytes.take size) [] 0 u) :=
  scanLines_eq short size 0 (Nat.zero_add size) [] 0 u

private theorem take_step (c : UInt8) (chars : List UInt8) :
    ((if field.length < 31 then field ++ [c] else field) ++ chars).take 31 = (field ++ c :: chars).take 31 := by
  split
  next => rw [List.append_assoc, List.singleton_append]
  next full =>
    have all : 31 ≤ field.length := Nat.not_lt.mp full
    rw [List.take_append_of_le_length all, List.take_append_of_le_length all]

/-- A line adds its bytes to the field while there is room. -/
theorem scanText_line (whole : 10 ∉ chars) (short : field.length ≤ 31) :
    scanText (chars ++ rest) field line u = scanText rest ((field ++ chars).take 31) line u := by
  induction chars generalizing field with
  | nil => rw [List.nil_append, List.append_nil, List.take_of_length_le short]
  | cons c chars ih =>
    obtain ⟨other, later⟩ := not_or.mp fun member => whole (List.mem_cons.mpr member)
    have room : (if field.length < 31 then field ++ [c] else field).length ≤ 31 := by
      split
      next more =>
        rw [List.length_append, List.length_singleton]
        exact more
      next => exact short
    rw [List.cons_append, scanText, if_pos (Ne.symm other), ih later room, take_step c chars]

/-- What `user_load` makes of the lines of a file: their first 31 bytes are taken. -/
def readLines (u : Users) : List (List UInt8) → Users
  | [] => u
  | [first] => takeLine u 0 (first.take 31)
  | first :: second :: _ => takeLine (takeLine u 0 (first.take 31)) 1 (second.take 31)

theorem scanText_second (content : List UInt8) (u : Users) :
    ∃ second more, content.splitOn 10 = second :: more ∧ scanText content [] 1 u = takeLine u 1 (second.take 31) := by
  by_cases newline : 10 ∈ content
  · obtain ⟨second, rest, rfl, whole⟩ := List.eq_append_cons_of_mem newline
    refine ⟨second, rest.splitOn 10, ?_, ?_⟩
    · rw [List.splitOn_append_cons_of_beq _ _ (beq_self_eq_true 10), List.splitOn_eq_singleton whole]
      rfl
    · rw [scanText_line whole (Nat.zero_le _), scanText, if_neg (not_not_intro rfl), if_pos (by decide)]
      rfl
  · have scanned := @scanText_line 1 content [] [] u newline (Nat.zero_le _)
    rw [List.append_nil] at scanned
    exact ⟨content, [], List.splitOn_eq_singleton newline, scanned⟩

/-- The loop takes the first two lines of the file, the last one also without a newline. -/
theorem scanText_lines (content : List UInt8) (u : Users) : scanText content [] 0 u = readLines u (content.splitOn 10) := by
  by_cases newline : 10 ∈ content
  · obtain ⟨first, rest, rfl, whole⟩ := List.eq_append_cons_of_mem newline
    obtain ⟨second, more, split, scanned⟩ := scanText_second rest (takeLine u 0 (first.take 31))
    rw [List.splitOn_append_cons_of_beq _ _ (beq_self_eq_true 10), List.splitOn_eq_singleton whole, split,
      scanText_line whole (Nat.zero_le _), scanText, if_neg (not_not_intro rfl), if_neg (by decide)]
    exact scanned
  · have scanned := @scanText_line 0 content [] [] u newline (Nat.zero_le _)
    rw [List.append_nil] at scanned
    rw [scanned, List.splitOn_eq_singleton newline]
    rfl

end Seaweed
