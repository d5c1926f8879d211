import Seaweed.Commands
import Seaweed.Library.Decimal

/-! The numbers that `sleep`, `color` and `help` are given, against the decimal value that
was typed: the loops wrap at `2 ^ 32`, or overflow an `int`, before the range is checked. -/

namespace Seaweed
open Library

def isDigit (c : UInt8) : Bool := decide (48 ≤ c) && decide (c ≤ 57)

def digitValues (chars : List UInt8) : List ℕ := chars.map fun c => c.toNat - 48

/-- The mathematical value of a string of digits. -/
def decimalValue (chars : List UInt8) : ℕ := Nat.ofDigits 10 (digitValues chars).reverse

/-- A nonempty digit string of value `n`. -/
def Decimal (chars : List UInt8) (n : ℕ) : Prop := chars ≠ [] ∧ chars.all isDigit = true ∧ decimalValue chars = n

instance (chars : List UInt8) (n : ℕ) : Decidable (Decimal chars n) := inferInstanceAs (Decidable (_ ∧ _))

section Digits

variable {c : UInt8}

theorem isDigit_iff : isDigit c = true ↔ 48 ≤ c.toNat ∧ c.toNat ≤ 57 := by
  simp [isDigit, UInt8.le_iff_toNat_le]

theorem signedChar_digit (digit : isDigit c = true) : signedChar c = c.toNat := by
  have bounds := isDigit_iff.mp digit
  have value : signedChar c = c.toBitVec.toInt := rfl
  rw [value, BitVec.toInt_eq_toNat_cond, if_pos (by rw [UInt8.toNat_toBitVec]; omega)]
  rfl

/-- The test that the three loops make on each character. -/
theorem outside_iff : (signedChar c < 48 ∨ 57 < signedChar c) ↔ isDigit c = false := by
  by_cases digit : isDigit c = true
  · have bounds := isDigit_iff.mp digit
    rw [signedChar_digit digit, digit]
    simp
    omega
  · have bounds := mt isDigit_iff.mpr digit
    have value : signedChar c = c.toBitVec.toInt := rfl
    have small := c.toBitVec.isLt
    rw [← UInt8.toNat_toBitVec] at bounds
    rw [value, BitVec.toInt_eq_toNat_cond, iff_true_right (by simpa using digit)]
    split <;> omega

theorem digit_word (digit : isDigit c = true) : (c - 48).toUInt32 = UInt32.ofNat (c.toNat - 48) := by
  have bounds := isDigit_iff.mp digit
  have difference : (c - 48).toNat = c.toNat - 48 := UInt8.toNat_sub_of_le _ _ (UInt8.le_iff_toNat_le.mpr bounds.1)
  apply UInt32.toNat_inj.mp
  rw [UInt8.toNat_toUInt32, difference, UInt32.toNat_ofNat_of_lt' (by simp only [UInt32.size]; omega)]

end Digits

section Loops

variable {chars : List UInt8}

/-- The unsigned loop keeps the value modulo `2 ^ 32`. -/
theorem unsignedFrom_eq (chars : List UInt8) (value : ℕ) :
    unsignedFrom chars (UInt32.ofNat value) =
      if chars.all isDigit = true then some (UInt32.ofNat (accumulate 10 value (digitValues chars))) else none := by
  induction chars generalizing value with
  | nil => rfl
  | cons c rest ih =>
    cases digit : isDigit c with
    | false =>
      rw [unsignedFrom, if_pos (outside_iff.mpr digit), if_neg (by simp [digit])]
    | true =>
      have step : UInt32.ofNat value * 10 + (c - 48).toUInt32 = UInt32.ofNat (value * 10 + (c.toNat - 48)) := by
        rw [digit_word digit, UInt32.ofNat_add, UInt32.ofNat_mul]
        rfl
      rw [unsignedFrom, if_neg (by simp [outside_iff, digit]), step, ih]
      simp [digit, digitValues, accumulate]

theorem Ran.int_natCast (value : ℕ) :
    Ran.int value = if value < 2 ^ 31 then .ok (value : ℤ) else .error .overflow := by
  unfold Ran.int
  congr 1
  apply propext
  omega

/-- The signed loop stops the program as soon as the value of the digits it has read does
not fit. -/
theorem signedFrom_eq (chars : List UInt8) (value : ℕ) (fits : value < 2 ^ 31) :
    signedFrom chars value =
      if accumulate 10 value (digitValues (chars.takeWhile isDigit)) < 2 ^ 31 then
        .ok (if chars.all isDigit = true then some (accumulate 10 value (digitValues chars) : ℤ) else none)
      else .error .overflow := by
  induction chars generalizing value with
  | nil =>
    rw [signedFrom]
    exact (if_pos fits).symm
  | cons c rest ih =>
    cases digit : isDigit c with
    | false =>
      have other : ¬ (c :: rest).all isDigit = true := by simp [digit]
      rw [signedFrom, if_pos (outside_iff.mpr digit), List.takeWhile_cons_of_neg (by simp [digit]), if_neg other]
      exact (if_pos fits).symm
    | true =>
      have later (next : ℕ) : next ≤ accumulate 10 next (digitValues (rest.takeWhile isDigit)) :=
        le_accumulate (by decide) next _
      have bounds := isDigit_iff.mp digit
      have run : accumulate 10 value (digitValues ((c :: rest).takeWhile isDigit)) =
          accumulate 10 (value * 10 + (c.toNat - 48)) (digitValues (rest.takeWhile isDigit)) := by
        rw [List.takeWhile_cons_of_pos digit]
        rfl
      have all : accumulate 10 value (digitValues (c :: rest)) =
          accumulate 10 (value * 10 + (c.toNat - 48)) (digitValues rest) := rfl
      have tens : (value : ℤ) * 10 = (value * 10 : ℕ) := by push_cast; rfl
      have sum : ((value * 10 : ℕ) : ℤ) + (signedChar c - 48) = (value * 10 + (c.toNat - 48) : ℕ) := by
        rw [signedChar_digit digit]
        omega
      rw [signedFrom, if_neg (by simp [outside_iff, digit]), run, all, List.all_cons, digit, Bool.true_and, tens, Ran.int_natCast]
      have grows := later (value * 10 + (c.toNat - 48))
      by_cases first : value * 10 < 2 ^ 31
      · rw [if_pos first, ok_bind, sum, Ran.int_natCast]
        by_cases second : value * 10 + (c.toNat - 48) < 2 ^ 31
        · rw [if_pos second, ok_bind, ih _ second]
        · rw [if_neg second, error_bind, if_neg (by omega)]
      · rw [if_neg first, error_bind, if_neg (by omega)]

end Loops

section Commands

variable {arg : CString}

/-- `sleep` waits `n` seconds for a value `n` of at most 60, and for nothing else. -/
def SleepsAsTyped (arg : CString) : Prop :=
  ∀ ms, .sleep ms ∈ cmdSleep arg ↔ ∃ n, Decimal arg.chars n ∧ n ≤ 60 ∧ ms = UInt32.ofNat (n * 1000)

/-- `color` runs without an overflow, and sets the colour `n` for a value `n` of at most
15, and nothing else. -/
def ColorsAsTyped (arg : CString) : Prop :=
  ∃ out, cmdColor arg = .ok out ∧
    ∀ foreground background, .color foreground background ∈ out ↔
      ∃ n, Decimal arg.chars n ∧ n ≤ 15 ∧ foreground = UInt8.ofNat n ∧ background = 0

/-- `help` with an argument prints page `n` for the value `n` of a page, and no page for
anything else. -/
def HelpsAsTyped (arg : CString) : Prop :=
  arg.chars ≠ [] → ∃ out, cmdHelp arg = .ok out ∧
    ∀ n, 1 ≤ n → n ≤ helpPages.toNat → (helpPage (UInt32.ofNat n) = .ok out ↔ Decimal arg.chars n)

theorem Decimal.unique {chars : List UInt8} {n k : ℕ} (first : Decimal chars n) (second : Decimal chars k) : n = k :=
  first.2.2.symm.trans second.2.2

theorem unsignedFrom_decimal {n : ℕ} (typed : Decimal arg.chars n) : unsignedFrom arg.chars 0 = some (UInt32.ofNat n) := by
  obtain ⟨_, digits, value⟩ := typed
  have read := unsignedFrom_eq arg.chars 0
  rwa [if_pos digits, accumulate_zero, ← decimalValue, value] at read

theorem unsignedFrom_other (given : arg.chars ≠ []) (other : ∀ n, ¬ Decimal arg.chars n) :
    unsignedFrom arg.chars 0 = none := by
  have read := unsignedFrom_eq arg.chars 0
  rwa [if_neg fun digits => other _ ⟨given, digits, rfl⟩] at read

theorem cmdSleep_decimal {n : ℕ} (typed : Decimal arg.chars n) :
    cmdSleep arg =
      if 60 < n % 2 ^ 32 then [.write "sleep: 60 seconds maximum\n"] else [.sleep (UInt32.ofNat (n * 1000))] := by
  have limit : 60 < UInt32.ofNat n ↔ 60 < n % 2 ^ 32 := by
    rw [UInt32.lt_iff_toNat_lt, UInt32.toNat_ofNat']
    rfl
  rw [cmdSleep, if_neg typed.1, unsignedFrom_decimal typed, UInt32.ofNat_mul]
  simp only [limit]
  rfl

theorem cmdSleep_other (other : ∀ n, ¬ Decimal arg.chars n) (ms : UInt32) : .sleep ms ∉ cmdSleep arg := by
  rw [cmdSleep]
  split
  · simp
  next given =>
    rw [unsignedFrom_other given other]
    simp

theorem sleeps_iff (arg : CString) :
    SleepsAsTyped arg ↔ ∀ n, Decimal arg.chars n → n ≤ 60 ∨ 60 < n % 2 ^ 32 := by
  by_cases number : ∃ n, Decimal arg.chars n
  · obtain ⟨n, typed⟩ := number
    rw [SleepsAsTyped, cmdSleep_decimal typed]
    constructor
    · intro waits k typed'
      obtain rfl := typed.unique typed'
      by_contra wrapped
      obtain ⟨k, typed', small, _⟩ := (waits (UInt32.ofNat (n * 1000))).mp (by rw [if_neg (by omega)]; simp)
      obtain rfl := typed.unique typed'
      omega
    · intro bound ms
      by_cases small : n ≤ 60
      · have whole : n % 2 ^ 32 = n := Nat.mod_eq_of_lt (by omega)
        rw [whole, if_neg (by omega), List.mem_singleton, Event.sleep.injEq]
        constructor
        · exact fun same => ⟨n, typed, small, same⟩
        · intro ⟨k, typed', _, same⟩
          rwa [typed.unique typed']
      · rw [if_pos ((bound n typed).resolve_left small)]
        constructor
        · intro waits
          simp at waits
        · intro ⟨k, typed', small', _⟩
          exact absurd (typed.unique typed' ▸ small') small
  · have other : ∀ n, ¬ Decimal arg.chars n := fun n typed => number ⟨n, typed⟩
    refine ⟨fun _ n typed => absurd typed (other n), fun _ ms => ?_⟩
    exact ⟨fun waits => absurd waits (cmdSleep_other other ms), fun ⟨n, typed, _⟩ => absurd typed (other n)⟩

theorem digitRun_whole {chars : List UInt8} (digits : chars.all isDigit = true) : chars.takeWhile isDigit = chars :=
  List.takeWhile_eq_self_iff.mpr (List.all_eq_true.mp digits)

theorem signedFrom_zero (chars : List UInt8) :
    signedFrom chars 0 =
      if decimalValue (chars.takeWhile isDigit) < 2 ^ 31 then
        .ok (if chars.all isDigit = true then some (decimalValue chars : ℤ) else none)
      else .error .overflow := by
  have read := signedFrom_eq chars 0 (by decide)
  rwa [accumulate_zero, accumulate_zero] at read

theorem ofInt_natCast (n : ℕ) : UInt8.ofInt n = UInt8.ofNat n := by
  apply UInt8.toNat_inj.mp
  rw [UInt8.ofInt, UInt8.toNat_ofNat', UInt8.toNat_ofNat']
  omega

theorem cmdColor_decimal {n : ℕ} (typed : Decimal arg.chars n) (fits : n < 2 ^ 31) :
    cmdColor arg = .ok (if 15 < n then [.write "color: pick a number from 0 to 15\n"]
      else [.color (UInt8.ofNat n) 0, .write "Color changed.\n"]) := by
  have limit : (15 : ℤ) < n ↔ 15 < n := by norm_cast
  rw [cmdColor, if_neg typed.1, signedFrom_zero, digitRun_whole typed.2.1, typed.2.2, if_pos fits, if_pos typed.2.1]
  simp only [ok_bind, limit, ofInt_natCast]
  split <;> rfl

theorem cmdColor_other (fits : decimalValue (arg.chars.takeWhile isDigit) < 2 ^ 31) (other : ∀ n, ¬ Decimal arg.chars n) :
    ∃ text, cmdColor arg = .ok [.write text] := by
  by_cases empty : arg.chars = []
  · exact ⟨_, by rw [cmdColor, if_pos empty]⟩
  · have letters : ¬ arg.chars.all isDigit = true := fun digits => other _ ⟨empty, digits, rfl⟩
    refine ⟨"color: not a number\n", ?_⟩
    rw [cmdColor, if_neg empty, signedFrom_zero, if_pos fits, if_neg letters]
    rfl

theorem cmdColor_overflow (large : ¬ decimalValue (arg.chars.takeWhile isDigit) < 2 ^ 31) :
    cmdColor arg = .error .overflow := by
  have given : arg.chars ≠ [] := by
    intro empty
    rw [empty] at large
    exact large (by decide)
  rw [cmdColor, if_neg given, signedFrom_zero, if_neg large]
  rfl

/-- The loop over the leading digits overflows exactly when their value does. -/
theorem colors_iff (arg : CString) : ColorsAsTyped arg ↔ decimalValue (arg.chars.takeWhile isDigit) < 2 ^ 31 := by
  constructor
  · intro ⟨out, done, _⟩
    by_contra large
    rw [cmdColor_overflow large] at done
    cases done
  intro fits
  by_cases number : ∃ n, Decimal arg.chars n
  · obtain ⟨n, typed⟩ := number
    rw [digitRun_whole typed.2.1, typed.2.2] at fits
    refine ⟨_, cmdColor_decimal typed fits, fun foreground background => ?_⟩
    by_cases small : n ≤ 15
    · rw [if_neg (by omega)]
      constructor
      · intro sets
        simp only [List.mem_cons, Event.color.injEq, reduceCtorEq, List.not_mem_nil, or_false] at sets
        exact ⟨n, typed, small, sets.1, sets.2⟩
      · intro ⟨k, typed', _, colour, ground⟩
        obtain rfl := typed.unique typed'
        rw [colour, ground]
        exact List.mem_cons_self
    · rw [if_pos (by omega)]
      constructor
      · intro sets
        simp at sets
      · intro ⟨k, typed', small', _⟩
        exact absurd (typed.unique typed' ▸ small') small
  · have other : ∀ n, ¬ Decimal arg.chars n := fun n typed => number ⟨n, typed⟩
    obtain ⟨text, done⟩ := cmdColor_other fits other
    refine ⟨_, done, fun foreground background => ⟨fun sets => ?_, fun ⟨n, typed, _⟩ => absurd typed (other n)⟩⟩
    simp at sets

/-- The two pages, each with its number at the head. -/
theorem helpPage_head {n : ℕ} (first : 1 ≤ n) (last : n ≤ 2) :
    ∃ out, helpPage (UInt32.ofNat n) = .ok out ∧ out[1]? = some (.chars [UInt8.ofNat (48 + n)]) := by
  have heads : ∀ k ∈ [1, 2], (helpPage (UInt32.ofNat k)).toOption.map (fun out => out[1]?) =
      some (some (.chars [UInt8.ofNat (48 + k)])) := by
    decide +kernel
  have head := heads n (by simp; omega)
  cases page : helpPage (UInt32.ofNat n) with
  | error wrong =>
    rw [page] at head
    cases head
  | ok out =>
    rw [page] at head
    exact ⟨out, rfl, Option.some.inj head⟩

theorem helpPage_unique {n k : ℕ} {out : List Event} (first : 1 ≤ n ∧ n ≤ 2) (second : 1 ≤ k ∧ k ≤ 2)
    (here : helpPage (UInt32.ofNat n) = .ok out) (there : helpPage (UInt32.ofNat k) = .ok out) : n = k := by
  obtain ⟨_, done, head⟩ := helpPage_head first.1 first.2
  obtain rfl := Except.ok.inj (here.symm.trans done)
  obtain ⟨_, done, head'⟩ := helpPage_head second.1 second.2
  obtain rfl := Except.ok.inj (there.symm.trans done)
  have same := congrArg UInt8.toNat (List.cons.inj (Event.chars.inj (Option.some.inj (head.symm.trans head')))).1
  rw [UInt8.toNat_ofNat', UInt8.toNat_ofNat'] at same
  omega

theorem helpPage_message {n : ℕ} (first : 1 ≤ n) (last : n ≤ 2) (text : String) :
    helpPage (UInt32.ofNat n) ≠ .ok [.write text] := by
  obtain ⟨_, done, head⟩ := helpPage_head first last
  intro message
  obtain rfl := Except.ok.inj (message.symm.trans done)
  cases head

theorem helpPages_two : helpPages = 2 := by decide

theorem cmdHelp_decimal {n : ℕ} (typed : Decimal arg.chars n) :
    cmdHelp arg =
      if n % 2 ^ 32 < 1 ∨ 2 < n % 2 ^ 32 then .ok [.write "help: no such page\n"] else helpPage (UInt32.ofNat n) := by
  have low : UInt32.ofNat n < 1 ↔ n % 2 ^ 32 < 1 := by
    rw [UInt32.lt_iff_toNat_lt, UInt32.toNat_ofNat']
    rfl
  have high : 2 < UInt32.ofNat n ↔ 2 < n % 2 ^ 32 := by
    rw [UInt32.lt_iff_toNat_lt, UInt32.toNat_ofNat']
    rfl
  rw [cmdHelp, if_neg typed.1, unsignedFrom_decimal typed]
  simp only [helpPages_two, low, high]

theorem cmdHelp_other (given : arg.chars ≠ []) (other : ∀ n, ¬ Decimal arg.chars n) :
    cmdHelp arg = .ok [.write "help: not a number\n"] := by
  rw [cmdHelp, if_neg given, unsignedFrom_other given other]

theorem helps_iff (arg : CString) :
    HelpsAsTyped arg ↔ ∀ n, Decimal arg.chars n → n ≤ 2 ∨ n % 2 ^ 32 < 1 ∨ 2 < n % 2 ^ 32 := by
  have pages : helpPages.toNat = 2 := by decide
  rw [HelpsAsTyped, pages]
  by_cases number : ∃ n, Decimal arg.chars n
  · obtain ⟨n, typed⟩ := number
    rw [cmdHelp_decimal typed]
    constructor
    · intro helps k typed'
      obtain rfl := typed.unique typed'
      by_contra wrapped
      have place : 1 ≤ n % 2 ^ 32 ∧ n % 2 ^ 32 ≤ 2 := by omega
      obtain ⟨out, done, only⟩ := helps typed.1
      rw [if_neg (by omega)] at done
      have same : UInt32.ofNat (n % 2 ^ 32) = UInt32.ofNat n := by
        apply UInt32.toNat_inj.mp
        rw [UInt32.toNat_ofNat', UInt32.toNat_ofNat', Nat.mod_mod]
      have printed := (only _ place.1 place.2).mp (same ▸ done)
      have := typed.unique printed
      omega
    · intro bound _
      by_cases page : 1 ≤ n ∧ n ≤ 2
      · have whole : n % 2 ^ 32 = n := Nat.mod_eq_of_lt (by omega)
        obtain ⟨out, done, _⟩ := helpPage_head page.1 page.2
        rw [whole, if_neg (by omega)]
        refine ⟨out, done, fun k first last => ⟨fun printed => ?_, fun typed' => ?_⟩⟩
        · rwa [helpPage_unique ⟨first, last⟩ page printed done]
        · rwa [← typed.unique typed']
      · have outside : n % 2 ^ 32 < 1 ∨ 2 < n % 2 ^ 32 := by
          rcases bound n typed with small | outside
          · left
            rw [Nat.mod_eq_of_lt (by omega)]
            omega
          · exact outside
        rw [if_pos outside]
        refine ⟨_, rfl, fun k first last => ⟨fun printed => absurd printed (helpPage_message first last _), fun typed' => ?_⟩⟩
        obtain rfl := typed.unique typed'
        exact absurd ⟨first, last⟩ page
  · have other : ∀ n, ¬ Decimal arg.chars n := fun n typed => number ⟨n, typed⟩
    refine ⟨fun _ n typed => absurd typed (other n), fun _ given => ⟨_, cmdHelp_other given other, fun k first last => ?_⟩⟩
    exact ⟨fun printed => absurd printed (helpPage_message first last _), fun typed => absurd typed (other k)⟩

/-- Each command judges a number by its value up to where its loop wraps into the range it
accepts, or overflows. -/
theorem numeric_arguments_judged_iff (arg : CString) :
    (SleepsAsTyped arg ↔ ∀ n, Decimal arg.chars n → n ≤ 60 ∨ 60 < n % 2 ^ 32) ∧
    (ColorsAsTyped arg ↔ decimalValue (arg.chars.takeWhile isDigit) < 2 ^ 31) ∧
    (HelpsAsTyped arg ↔ ∀ n, Decimal arg.chars n → n ≤ 2 ∨ n % 2 ^ 32 < 1 ∨ 2 < n % 2 ^ 32) :=
  ⟨sleeps_iff arg, colors_iff arg, helps_iff arg⟩

/-- One more than `2 ^ 32`: a second, the first page, an overflow. -/
theorem numeric_arguments_wrap : ¬ ∀ arg : CString, arg.chars.length ≤ 255 →
    SleepsAsTyped arg ∧ ColorsAsTyped arg ∧ HelpsAsTyped arg := by
  intro all
  have typed : Decimal (literal "4294967297").chars 4294967297 := by decide +kernel
  obtain ⟨sleeps, _, _⟩ := all (literal "4294967297") (by decide)
  have within := (sleeps_iff _).mp sleeps _ typed
  omega

end Commands

end Seaweed
