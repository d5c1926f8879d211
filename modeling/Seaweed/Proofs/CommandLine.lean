import Seaweed.Commands

/-! What `execute` makes of a terminated line: the first word chooses the row of the
command table, and the rest of the line after the spaces behind it is the argument. -/

namespace Seaweed
open Library

section Words

variable (s : CString)

/-- The maximal run of characters that are no spaces, behind the spaces at the front. -/
def CString.firstWord : CString where
  chars := (s.chars.dropWhile (· = 32)).takeWhile (· ≠ 32)
  terminated member := s.terminated ((List.dropWhile_sublist _).subset ((List.takeWhile_sublist _).subset member))

/-- What follows the first word and the spaces behind it. -/
def CString.afterWord : CString where
  chars := ((s.chars.dropWhile (· = 32)).dropWhile (· ≠ 32)).dropWhile (· = 32)
  terminated member := s.terminated
    (((List.dropWhile_sublist _).trans ((List.dropWhile_sublist _).trans (List.dropWhile_sublist _))).subset member)

theorem CString.afterWord_length : s.afterWord.chars.length ≤ s.chars.length :=
  ((List.dropWhile_sublist _).trans ((List.dropWhile_sublist _).trans (List.dropWhile_sublist _))).length_le

theorem CString.afterWord_trimmed : s.afterWord.chars.dropWhile (· = 32) = s.afterWord.chars :=
  List.dropWhile_idempotent ..

end Words

section Cut

variable {text : List UInt8}

theorem CString.ofBytes_cons {c : UInt8} (more : c ≠ 0) (rest : List UInt8) :
    (CString.ofBytes (c :: rest)).chars = c :: (CString.ofBytes rest).chars := by
  simp [CString.ofBytes, more]

theorem skipSpaces_spec (terminated : 0 ∈ text) :
    ∃ rest, skipSpaces text = some rest ∧ 0 ∈ rest ∧
      (CString.ofBytes rest).chars = (CString.ofBytes text).chars.dropWhile (· = 32) := by
  induction text with
  | nil => cases terminated
  | cons c rest ih =>
    by_cases space : c = 32
    · subst space
      obtain ⟨left, skipped, inside, same⟩ := ih (by simpa using terminated)
      refine ⟨left, by simpa [skipSpaces] using skipped, inside, ?_⟩
      rw [same, CString.ofBytes_cons (by decide)]
      simp
    · refine ⟨c :: rest, by simp [skipSpaces, space], terminated, ?_⟩
      by_cases zero : c = 0
      · simp [CString.ofBytes, zero]
      · rw [CString.ofBytes_cons zero]
        simp [space]

theorem wordEnd_spec (terminated : 0 ∈ text) :
    ∃ i, wordEnd text = some i ∧ i < text.length ∧
      text.take i = (CString.ofBytes text).chars.takeWhile (· ≠ 32) ∧
      ((text[i]? = some 0 ∧ (CString.ofBytes text).chars.dropWhile (· ≠ 32) = []) ∨
        (text[i]? = some 32 ∧ 0 ∈ text.drop (i + 1) ∧
          (CString.ofBytes text).chars.dropWhile (· ≠ 32) = 32 :: (CString.ofBytes (text.drop (i + 1))).chars)) := by
  induction text with
  | nil => cases terminated
  | cons c rest ih =>
    by_cases zero : c = 0
    · exact ⟨0, by simp [wordEnd, zero], by simp, by simp [CString.ofBytes, zero],
        .inl (by simp [CString.ofBytes, zero])⟩
    by_cases space : c = 32
    · subst space
      refine ⟨0, by simp [wordEnd], by simp, ?_, .inr ⟨rfl, by simpa using terminated, ?_⟩⟩
      · rw [CString.ofBytes_cons zero]
        simp
      · rw [CString.ofBytes_cons zero]
        simp
    · have later : 0 ∈ rest := (List.mem_cons.mp terminated).resolve_left (Ne.symm zero)
      obtain ⟨i, found, inside, before, after⟩ := ih later
      refine ⟨i + 1, by simp [wordEnd, zero, space, found], by simpa using inside, ?_, ?_⟩
      · rw [CString.ofBytes_cons zero, List.take_succ_cons, before]
        simp [space]
      · rw [CString.ofBytes_cons zero]
        simpa [space] using after

/-- Cutting the array short leaves the word, and the argument stands behind it. -/
theorem split_spec (terminated : 0 ∈ text) :
    ∃ command arg, Shell.split text = some (command, arg) ∧ 0 ∈ command ∧
      (CString.ofBytes command).chars = (CString.ofBytes text).chars.takeWhile (· ≠ 32) ∧
      (CString.ofBytes arg).chars = ((CString.ofBytes text).chars.dropWhile (· ≠ 32)).dropWhile (· = 32) := by
  obtain ⟨i, found, inside, before, here⟩ := wordEnd_spec terminated
  rcases here with ⟨last, after⟩ | ⟨space, later, after⟩
  · refine ⟨text, text.drop i, by simp [Shell.split, found, last], terminated, ?_, ?_⟩
    · have whole := @List.takeWhile_append_dropWhile _ (· ≠ (32 : UInt8)) (CString.ofBytes text).chars
      rw [after, List.append_nil] at whole
      exact whole.symm
    · rw [after, List.drop_eq_getElem?_toList_append, last]
      simp [CString.ofBytes]
  · obtain ⟨arg, skipped, _, same⟩ := skipSpaces_spec later
    refine ⟨text.set i 0, arg, by simp [Shell.split, found, space, skipped], List.mem_set inside 0, ?_, ?_⟩
    · have kept : (0 : UInt8) ∉ (CString.ofBytes text).chars.takeWhile (· ≠ 32) :=
        fun member => (CString.ofBytes text).terminated ((List.takeWhile_sublist _).subset member)
      have cut := CString.ofBytes_append ⟨_, kept⟩ (text.drop (i + 1))
      rw [List.set_eq_take_append_cons_drop, if_pos inside, before]
      simpa [CString.bytes] using congrArg CString.chars cut
    · rw [after, same]
      simp

theorem findCommand_eq (terminated : 0 ∈ text) (rows : List Command) :
    findCommand text rows = .ok (rows.find? fun row => CString.ofBytes text = literal row.name) := by
  induction rows with
  | nil => rfl
  | cons row rest ih =>
    obtain ⟨order, compared, equal⟩ := strcmp_terminated text (literal row.name) terminated
    simp only [findCommand, compared, Ran.ofOption_some, ok_bind, ih]
    by_cases same : order = 0
    · simp [same, equal.mp same]
    · simp [same, mt equal.mpr same]

end Cut

section Lines

/-- The array `line` with a text at its front. -/
def lineOf (text : String) : Buffer lineMax := fun i => (literal text).chars.getD i 0

variable (line : Buffer lineMax)

theorem line_short : (CString.ofBytes line.bytes).chars.length ≤ 256 := by
  have shorter := (List.takeWhile_sublist (· != 0) (l := line.bytes)).length_le
  rwa [line.bytes_length] at shorter

end Lines

section Dispatch

variable {σ : Type} (ata : Ata σ) {text : List UInt8} (m : Machine σ)

theorem execute_eq (terminated : 0 ∈ text) :
    execute ata text m =
      if (CString.ofBytes text).firstWord.chars = [] then .ok ([], m)
      else
        match commands.find? fun row => (CString.ofBytes text).firstWord = literal row.name with
        | some row => row.run.call ata (CString.ofBytes text).afterWord m
        | none => .ok ([.chars (CString.ofBytes text).firstWord.chars, .write ": command not found. Type help.\n"], m) := by
  obtain ⟨rest, skipped, inside, trimmed⟩ := skipSpaces_spec terminated
  obtain ⟨command, arg, cut, ended, word, argument⟩ := split_spec inside
  have first : CString.ofBytes command = (CString.ofBytes text).firstWord := by
    ext1
    rw [word, trimmed]
    rfl
  have second : CString.ofBytes arg = (CString.ofBytes text).afterWord := by
    ext1
    rw [argument, trimmed]
    rfl
  have blank : rest.head? = some 0 ↔ (CString.ofBytes text).firstWord.chars = [] := by
    rw [← first, word]
    cases rest with
    | nil => cases inside
    | cons c tail =>
      by_cases zero : c = 0
      · simp [CString.ofBytes, zero]
      · have letter := List.head?_dropWhile_not (· = (32 : UInt8)) (CString.ofBytes text).chars
        rw [← trimmed, CString.ofBytes_cons zero] at letter
        have other : c ≠ 32 := by simpa using letter
        rw [CString.ofBytes_cons zero]
        simp [zero, other]
  cases looked : commands.find? fun row => (CString.ofBytes text).firstWord = literal row.name with
  | some row =>
    simp only [execute, skipped, Ran.ofOption_some, ok_bind, blank, cut, findCommand_eq ended, first, second, looked]
  | none =>
    simp only [execute, skipped, Ran.ofOption_some, ok_bind, blank, cut, findCommand_eq ended, first, looked]

/-- The names of the table differ, and none is empty. -/
theorem commands_find : ∀ row ∈ commands, literal row.name ≠ ⟨[], by simp⟩ ∧
    commands.find? (fun other => literal row.name = literal other.name) = some row := by
  decide +kernel

/-- A line whose first word is in the table calls that row's function. -/
theorem execute_word (terminated : 0 ∈ text) {word : String} {fn : CommandFn}
    (listed : ∃ row ∈ commands, row.name = word ∧ row.run = fn)
    (named : (CString.ofBytes text).firstWord = literal word) :
    execute ata text m = fn.call ata (CString.ofBytes text).afterWord m := by
  obtain ⟨row, member, rfl, rfl⟩ := listed
  obtain ⟨nonempty, found⟩ := commands_find row member
  rw [execute_eq ata m terminated, named, found, if_neg fun empty => nonempty (CString.ext empty)]

end Dispatch

section Listing

variable {s : Fish} {handle next : Handle} {entry : Entry}

theorem fishNext_later (found : fishNext s handle = (some entry, next)) : handle.val < next.val := by
  unfold fishNext at found
  split at found
  next i first =>
    obtain ⟨_, rfl⟩ := Prod.mk.inj found
    have inside := List.find?_some first
    simp only [Bool.and_eq_true, decide_eq_true_eq] at inside
    exact Nat.lt_succ_of_le inside.1.1
  next => cases found

theorem fishNext_end (behind : fishMaxNodes ≤ handle.val) : fishNext s handle = (none, 0) := by
  unfold fishNext
  split
  next i first =>
    have inside := List.find?_some first
    simp only [Bool.and_eq_true, decide_eq_true_eq] at inside
    exact absurd i.isLt (by omega)
  next => rfl

/-- As many turns as there are slots from the handle on list everything. -/
theorem lsFrom_ends (turns more : ℕ) (handle : Handle) (enough : fishMaxNodes ≤ handle.val + turns) :
    lsFrom s (turns + more) handle = lsFrom s turns handle := by
  induction turns generalizing handle with
  | zero =>
    cases more with
    | zero => rfl
    | succ more =>
      have last := @fishNext_end s handle enough
      simp only [lsFrom, last]
  | succ turns ih =>
    rw [Nat.succ_add_eq_add_succ, Nat.add_succ, lsFrom, lsFrom]
    split
    · rfl
    next entry next found =>
      have later := fishNext_later found
      rw [ih next (by omega)]

/-- The bound on the turns of `ls` cuts no listing short. -/
theorem cmdLs_whole (s : Fish) (more : ℕ) : lsFrom s (fishMaxNodes + more) fishFirst = lsFrom s fishMaxNodes fishFirst :=
  lsFrom_ends fishMaxNodes more fishFirst (by decide)

end Listing

end Seaweed
