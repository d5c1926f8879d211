import Seaweed.Commands
import Seaweed.Proofs.FishListing
import Seaweed.Proofs.FishPaths
import Seaweed.Proofs.FishRefinement
import Seaweed.Proofs.FishRuns
import Seaweed.Proofs.NumeralText

/-! What the commands that change nothing write, in terms of what they show: the numbers of
the timer, the entries of the current directory, its path and the bytes of a file. -/

namespace Seaweed
open Library

variable {s : Fish} {d i : Fin fishMaxNodes} {arg : CString} {n : ℕ}

section Numbers

/-- A string laid over the front of a buffer reads back as it is. -/
theorem overlay_string (dest : Buffer n) (text : CString) (fits : text.bytes.length ≤ n) :
    CString.ofBytes (overlay dest 0 text.bytes).bytes = text := by
  have start := overlay_bytes dest 0 text.bytes (by omega)
  simp only [List.take_zero, List.nil_append] at start
  have whole := (List.take_append_drop (0 + text.bytes.length) (overlay dest 0 text.bytes).bytes).symm
  rw [start] at whole
  rw [whole]
  exact CString.ofBytes_append text _

theorem numeral_eq (value : UInt32) : numeral value = .ok (numeralText 10 value.toNat) := by
  have short : (numeralText 10 value.toNat).length ≤ 10 :=
    numeral_length (by decide) (by decide) (value.toNat_lt.trans (by decide))
  have terminated := (numeral_canonical (by decide : 2 ≤ 10) (by decide) value.toNat).terminated
  have written : utoa value (fun _ => 0 : Buffer 12) (Int32.ofNat 10) =
      some (overlay (fun _ => 0) 0 (numeralText 10 value.toNat ++ [0])) :=
    utoa_eq (by decide) (by decide) (by omega)
  have back := overlay_string (fun _ => 0 : Buffer 12) ⟨numeralText 10 value.toNat, terminated⟩
    (by simp only [CString.bytes, List.length_append, List.length_singleton]; omega)
  have ten : Int32.ofNat 10 = 10 := rfl
  rw [ten] at written
  rw [numeral, written]
  exact congrArg (fun text : CString => Except.ok text.chars) back

/-- A count with its word, which gets an `s` unless the count is one. -/
def unitText (value : UInt32) (word : String) : List Event :=
  ([.chars (numeralText 10 value.toNat), .chars [32], .write word] : List Event) ++ if value ≠ 1 then [.chars [115]] else []

theorem printUnit_eq (value : UInt32) (word : String) : printUnit value word = .ok (unitText value word) := by
  rw [printUnit, numeral_eq]
  rfl

/-- A unit that is zero is left out with its comma. -/
def unitsText (value : UInt32) (word : String) : List Event :=
  if 0 < value then unitText value word ++ [.write ", "] else []

def uptimeText (total : UInt32) : List Event :=
  .write "up " :: unitsText (total / 3600) "hour" ++ unitsText (total / 60 % 60) "minute" ++ unitText (total % 60) "second" ++
    [newline]

theorem cmdUptime_eq (ticks : UInt32) : cmdUptime ticks = .ok (uptimeText (timerSeconds ticks)) := by
  rw [cmdUptime]
  simp only [printUnit_eq, ok_bind, uptimeText, unitsText]
  split <;> split <;> simp

theorem cmdTicks_eq (ticks : UInt32) :
    cmdTicks ticks = .ok [.chars (numeralText 10 ticks.toNat), .write " ticks at ",
      .chars (numeralText 10 timerHz.toNat), .write " Hz\n"] := by
  rw [cmdTicks, numeral_eq, numeral_eq]
  rfl

end Numbers

section Listing

/-- The line of `ls` for a slot. -/
def Fish.line (s : Fish) (i : Fin fishMaxNodes) : List Event :=
  if (s.nodes i).isDir ≠ 0 then [.color 9 0, .write "[DIR]  ", .chars (s.nodes i).called.chars, newline]
  else [.color 7 0, .write "[FILE] ", .chars (s.nodes i).called.chars, .write "  (",
    .chars (numeralText 10 (s.nodes i).size.toNat), .write " bytes)", newline]

theorem lsLine_eq (terminated : 0 ∈ (s.nodes i).name.bytes) : lsLine (s.entryAt i) = .ok (s.line i) := by
  have name : 0 ∈ (s.entryAt i).name.bytes := terminated
  have size : (s.entryAt i).size = (s.nodes i).size := rfl
  have kind : (s.entryAt i).isDir = (s.nodes i).isDir := rfl
  simp only [lsLine, if_pos name, numeral_eq, ok_bind, Fish.line, size, kind]
  split <;> rfl

theorem Sound.listed_named (sound : Sound s) (listed : s.listed i = true) : 0 ∈ (s.nodes i).name.bytes := by
  obtain ⟨d, here, _, _⟩ := sound.cwd
  obtain ⟨used, under⟩ := (Fish.listed_iff here).mp listed
  exact (sound.named i (sound.inner under) used).1

/-- The loop of `ls` shows every slot from its handle on that belongs to the directory. -/
theorem Sound.lsFrom_eq (sound : Sound s) (turns : ℕ) (handle : Handle) (enough : fishMaxNodes ≤ handle.val + turns) :
    lsFrom s turns handle = .ok ((presentFrom s.listed handle.val).map s.line) := by
  induction turns generalizing handle with
  | zero =>
    have nothing : presentFrom s.listed handle.val = [] := by
      apply List.eq_nil_iff_forall_not_mem.mpr
      intro i member
      have low := (mem_presentFrom.mp member).1
      have inside := i.isLt
      omega
    rw [nothing]
    rfl
  | succ turns ih =>
    rw [lsFrom, fishNext_eq]
    cases found : firstFrom s.listed handle.val with
    | none =>
      rw [presentFrom_none found]
      rfl
    | some i =>
      obtain ⟨low, listed⟩ := firstFrom_some found
      have later : fishMaxNodes ≤ i.succ.val + turns := by
        rw [Fin.val_succ]
        omega
      simp only [lsLine_eq (sound.listed_named listed), ih i.succ later, presentFrom_some found, ok_bind]
      rfl

/-- What `ls` writes: a line for each entry, in the order of the slots. -/
theorem Sound.cmdLs_eq (sound : Sound s) :
    cmdLs s = .ok (((presentFrom s.listed 0).map s.line).flatten ++ [.color 7 0] ++
      if presentFrom s.listed 0 = [] then [.write "Directory is empty.\n"] else []) := by
  have lines := sound.lsFrom_eq fishMaxNodes fishFirst (Nat.le_add_left ..)
  rw [cmdLs, lines, ok_bind, List.length_map]
  simp only [List.length_eq_zero_iff]
  rfl

end Listing

section Showing

/-- `pwd` has room for 255 characters. -/
theorem Sound.cmdPwd_eq (sound : Sound s) : cmdPwd s = .ok [.chars (s.cwdPath.text.chars.take 255), newline] := by
  have path := @Sound.fishPath_take s sound 256 (by decide)
  have terminated : 0 ∉ s.cwdPath.text.chars.take 255 := fun member => s.cwdPath.text.terminated (List.mem_of_mem_take member)
  have back : CString.ofBytes (s.cwdPath.text.chars.take 255 ++ [0]) = ⟨s.cwdPath.text.chars.take 255, terminated⟩ := by
    have whole := CString.ofBytes_append ⟨s.cwdPath.text.chars.take 255, terminated⟩ []
    simp only [CString.bytes, List.append_nil] at whole
    exact whole
  have room : (256 : UInt32).toNat - 1 = 255 := rfl
  rw [room] at path
  rw [cmdPwd, path, Ran.ofChecked_ok, ok_bind, back]

/-- A file without a last newline gets one. -/
def shownText (content : List UInt8) : List Event :=
  .chars content :: if content ≠ [] ∧ content.getLast? ≠ some 10 then [newline] else []

theorem Valid.cmdCat_eq (valid : Valid s) (arg : CString) :
    cmdCat arg s = .ok (if arg.chars = [] then [.write "Usage: cat <file>\n"]
      else (valid.toSound.view.read arg).elim [.write "cat: no such file\n"] shownText) := by
  rw [cmdCat]
  by_cases empty : arg.chars = []
  · rw [if_pos empty, if_pos empty]
  rw [if_neg empty, if_neg empty]
  obtain ⟨result, done, read⟩ := valid.fishRead_refines arg
  obtain ⟨_, again, inside⟩ := valid.toSound.fishRead_inside arg
  obtain rfl := Except.ok.inj (done.symm.trans again)
  rw [done, ← read]
  cases result with
  | none => rfl
  | some found =>
    obtain ⟨size, data⟩ := found
    have fits : ¬ fishFileMax < size.toNat := Nat.not_lt.mpr (inside size data rfl)
    have empty : 0 < size ↔ data.bytes.take size.toNat ≠ [] := by
      have zero : ¬ size = 0 ↔ size.toNat ≠ 0 := by
        rw [← UInt32.toNat_inj]
        rfl
      rw [UInt32.pos_iff_ne_zero, ne_eq, zero, ← List.length_pos_iff, List.length_take, data.bytes_length]
      omega
    simp only [Ran.ofChecked_ok, ok_bind, if_neg fits, empty]
    rfl

end Showing
end Seaweed
