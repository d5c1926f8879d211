import Seaweed.Proofs.CommandLine
import Seaweed.Proofs.FishRefinement
import Seaweed.Proofs.FishSectors

/-! The commands that change the tree: which file `write` and `append` act on, and what
is left of the tree when a command reports a failure. -/

namespace Seaweed
open Library

section Cutting

variable {arg : CString}

theorem cutName_eq (room : ℕ) (chars : List UInt8) :
    cutName room chars =
      ((chars.takeWhile (· ≠ 32)).take room, chars.drop ((chars.takeWhile (· ≠ 32)).take room).length) := by
  induction room generalizing chars with
  | zero => simp [cutName]
  | succ room ih =>
    cases chars with
    | nil => simp [cutName]
    | cons c rest =>
      by_cases space : c = 32
      · simp [cutName, space]
      · simp [cutName, space, ih rest]

theorem CString.word_append (trimmed : arg.chars.dropWhile (· = 32) = arg.chars) :
    arg.firstWord.chars ++ arg.chars.dropWhile (· ≠ 32) = arg.chars := by
  change (arg.chars.dropWhile (· = 32)).takeWhile (· ≠ 32) ++ _ = _
  rw [trimmed]
  exact List.takeWhile_append_dropWhile

/-- The name that `write` and `append` look up. -/
def CString.cutWord (arg : CString) : CString where
  chars := arg.firstWord.chars.take 31
  terminated member := arg.firstWord.terminated (List.mem_of_mem_take member)

theorem cutWord_short (short : arg.firstWord.chars.length ≤ 31) : arg.cutWord = arg.firstWord :=
  CString.ext (List.take_of_length_le short)

theorem cutName_word (trimmed : arg.chars.dropWhile (· = 32) = arg.chars) :
    cutName (fishNameMax - 1) arg.chars = (arg.cutWord.chars, arg.chars.drop arg.cutWord.chars.length) := by
  have word : arg.firstWord.chars = arg.chars.takeWhile (· ≠ 32) := congrArg (List.takeWhile fun c : UInt8 => decide (c ≠ 32)) trimmed
  rw [cutName_eq, ← word]
  rfl

/-- The text that `write` and `append` pass on. -/
def CString.cutText (arg : CString) : CString where
  chars := (arg.chars.drop arg.cutWord.chars.length).dropWhile (· = 32)
  terminated member := arg.terminated (List.mem_of_mem_drop ((List.dropWhile_sublist _).subset member))

theorem cutText_length : arg.cutText.chars.length ≤ arg.chars.length :=
  ((List.dropWhile_sublist _).trans (List.drop_sublist ..)).length_le

theorem cutText_short (trimmed : arg.chars.dropWhile (· = 32) = arg.chars) (short : arg.firstWord.chars.length ≤ 31) :
    arg.cutText = arg.afterWord := by
  have whole := CString.word_append trimmed
  have rest : arg.chars.drop arg.firstWord.chars.length = arg.chars.dropWhile (· ≠ 32) := by
    nth_rewrite 1 [← whole]
    exact List.drop_left
  ext1
  simp only [CString.cutText, CString.afterWord]
  rw [cutWord_short short, rest, trimmed]

/-- Behind a name that was cut comes the rest of the word. -/
theorem cutText_long (trimmed : arg.chars.dropWhile (· = 32) = arg.chars) (long : 31 < arg.firstWord.chars.length) :
    arg.cutText.chars = arg.chars.drop 31 ∧ arg.chars.drop 31 ≠ [] := by
  have cut : arg.cutWord.chars.length = 31 := by
    rw [CString.cutWord, List.length_take]
    omega
  have whole := CString.word_append trimmed
  have rest : arg.chars.drop 31 = arg.firstWord.chars.drop 31 ++ arg.chars.dropWhile (· ≠ 32) := by
    nth_rewrite 1 [← whole]
    exact List.drop_append_of_le_length (by omega)
  obtain ⟨c, tail, left⟩ : ∃ c tail, arg.firstWord.chars.drop 31 = c :: tail := by
    apply List.exists_cons_of_length_pos
    rw [List.length_drop]
    omega
  have letter : c ≠ 32 := by
    have member : c ∈ arg.firstWord.chars := List.mem_of_mem_drop (left ▸ List.mem_cons_self)
    simpa using List.mem_takeWhile_imp member
  have text : arg.cutText.chars = (arg.chars.drop 31).dropWhile (· = 32) := by simp only [CString.cutText, cut]
  rw [text, rest, left]
  exact ⟨by simp [letter], by simp⟩

end Cutting

section Contents

variable {s : Fish} {d i : Fin fishMaxNodes} {name : CString}

theorem overlay_same {n : ℕ} (dest : Buffer n) (src : List UInt8) (held : dest.bytes.take src.length = src) :
    overlay dest 0 src = dest := by
  funext i
  simp only [overlay, Nat.zero_le, true_and, Nat.zero_add, Nat.sub_zero]
  split
  next inside =>
    have place : i.val < dest.bytes.length := by
      rw [dest.bytes_length]
      exact i.isLt
    rw [List.getD_eq_getElem?_getD]
    nth_rewrite 1 [← held]
    rw [List.getElem?_take_of_lt inside, List.getElem?_eq_getElem place]
    simp [Buffer.bytes]
  next => rfl

/-- No entry carries a name that `valid_name` refuses for its length. -/
theorem Sound.child_long (sound : Sound s) (long : 31 < name.chars.length) : s.child d name = none := by
  rw [Option.eq_none_iff_forall_ne_some]
  intro i found
  obtain ⟨used, under, rfl⟩ := Fish.child_some found
  have inner := sound.inner under
  have short : (s.nodes i).called.chars.length ≤ 31 := (validName_spec (sound.named i inner used).2).2.1
  omega

/-- Writing what a file holds changes nothing. -/
theorem Sound.fishWrite_again (sound : Sound s) (here : s.current = index d) (found : s.child d name = some i)
    (file : ¬ s.Dir i) (text : Text) (same : (s.nodes i).content = text.chars) :
    fishWrite s name text.toCString = .ok (.ok, s) := by
  have used := (Fish.child_some found).1
  have length := sound.content_length used
  have small : (s.nodes i).size.toNat ≤ 512 := sound.sized i used
  rw [same] at length
  have size : sizeOf text.toCString = (s.nodes i).size := by
    apply UInt32.toNat_inj.mp
    rw [text.sizeOf_toNat, length]
  have within : ¬ 512 < sizeOf text.toCString := by
    rw [UInt32.lt_iff_toNat_lt, text.sizeOf_toNat, length]
    exact Nat.not_lt.mpr small
  have data : overlay (s.nodes i).data 0 text.chars = (s.nodes i).data := by
    apply overlay_same
    rw [length]
    exact same
  have kept : s.set i { s.nodes i with data := (s.nodes i).data, size := (s.nodes i).size } = s := by
    simp [Fish.set]
  unfold fishWrite
  rw [here, sound.findChild_eq d name, text.taken, found]
  simp only [ok_bind]
  rw [if_neg (not_not.mpr (by simpa [Fish.Dir] using file)), if_neg within,
    memcpy_inside _ _ _ (by change 0 + text.chars.length ≤ 512; omega), Checked.ofOption_some, ok_bind, data, size, kept]

/-- An edit leaves the tree alone when it is refused, or when it makes the bytes that are
there. -/
theorem Sound.edit_same (sound : Sound s) (here : s.current = index d) {change : List UInt8 → List UInt8}
    {result : Checked (FishCode × Fish)} (outcome : EditOutcome s d name change result)
    (again : ∀ i, s.child d name = some i → ¬ s.Dir i → change (s.nodes i).content = (s.nodes i).content →
      result = .ok (.ok, s)) :
    (∃ code, result = .ok (code, s)) ↔
      ∀ old, sound.view.look name = some (.file old) → fishFileMax < (change old).length ∨ change old = old := by
  rw [sound.look_eq here]
  rcases outcome with ⟨missing, done⟩ |
    ⟨i, found, ⟨dir, done⟩ | ⟨file, long, done⟩ | ⟨file, fits, data, size, length, bytes, done⟩⟩
  · exact ⟨fun _ old held => by simp [missing] at held, fun _ => ⟨_, done⟩⟩
  · exact ⟨fun _ old held => by simp [found, Fish.kind_dir dir] at held, fun _ => ⟨_, done⟩⟩
  · rw [found, Option.map_some, Fish.kind_file file]
    refine ⟨fun _ old held => ?_, fun _ => ⟨_, done⟩⟩
    obtain rfl := Content.file.inj (Option.some.inj held)
    exact .inl long
  · rw [found, Option.map_some, Fish.kind_file file]
    constructor
    · intro ⟨code, kept⟩ old held
      obtain rfl := Content.file.inj (Option.some.inj held)
      rw [done] at kept
      have node := congrArg (fun after => after.nodes i) (Prod.mk.inj (Except.ok.inj kept)).2
      simp only [Fish.set_same] at node
      right
      rw [← bytes, ← node]
      rfl
    · intro agrees
      exact ⟨.ok, again i found file ((agrees _ rfl).resolve_left (by omega))⟩

theorem Sound.fishWrite_same (sound : Sound s) (name : CString) (text : Text) :
    (∃ code, fishWrite s name text.toCString = .ok (code, s)) ↔
      ∀ old, sound.view.look name = some (.file old) → fishFileMax < text.chars.length ∨ text.chars = old := by
  obtain ⟨d, here, _, _⟩ := sound.cwd
  apply sound.edit_same here (sound.fishWrite_cases here name text)
  intro i found file same
  exact sound.fishWrite_again here found file text same.symm

theorem Sound.fishAppend_same (sound : Sound s) (name : CString) (text : Text) (more : text.chars ≠ []) :
    (∃ code, fishAppend s name text.toCString = .ok (code, s)) ↔
      ∀ old, sound.view.look name = some (.file old) → fishFileMax < old.length + text.chars.length := by
  obtain ⟨d, here, _, _⟩ := sound.cwd
  have grows (old : List UInt8) : old ++ text.chars ≠ old := fun same => more (List.append_right_eq_self.mp same)
  have same := sound.edit_same here (sound.fishAppend_cases here name text)
    fun i _ _ same => absurd same (grows _)
  refine same.trans (forall₂_congr fun old _ => ?_)
  rw [List.length_append]
  exact or_iff_left (grows old)

end Contents

section Writing

variable {σ : Type} (ata : Ata σ) {m : Machine σ} (line : Buffer lineMax) (appending : Bool)

def writeCall : Fish → CString → CString → Checked (FishCode × Fish) := if appending then fishAppend else fishWrite

def writeWord : CString := literal (if appending then "append" else "write")

theorem Sound.writeCall_edits {s : Fish} (sound : Sound s) (name : CString) (text : Text) :
    Edits s (writeCall appending s name text.toCString) := by
  cases appending with
  | false => exact sound.fishWrite_edits name text
  | true => exact sound.fishAppend_edits name text

theorem Sound.writeCall_absent {s : Fish} {d : Fin fishMaxNodes} (sound : Sound s) (here : s.current = index d)
    {name : CString} (missing : s.child d name = none) (text : CString) :
    writeCall appending s name text = .ok (.noent, s) := by
  cases appending <;> simp [writeCall, fishWrite, fishAppend, here, sound.findChild_eq, missing]

/-- With a text that fits any file and is not empty. -/
theorem Sound.writeCall_same {s : Fish} (sound : Sound s) (name : CString) (text : Text) (fits : text.chars.length ≤ 256)
    (more : text.chars ≠ []) :
    (∃ code, writeCall appending s name text.toCString = .ok (code, s)) ↔
      ∀ old, sound.view.look name = some (.file old) →
        if appending then 512 < old.length + text.chars.length else old = text.chars := by
  cases appending with
  | false =>
    have small : ¬ fishFileMax < text.chars.length := Nat.not_lt.mpr (fits.trans (by decide))
    refine (sound.fishWrite_same name text).trans (forall₂_congr fun old held => ?_)
    exact (or_iff_right small).trans eq_comm
  | true => exact sound.fishAppend_same name text more

theorem writeCommon_ok {arg : CString} (given : arg.chars ≠ []) (trimmed : arg.chars.dropWhile (· = 32) = arg.chars)
    {s after : Fish} {code : FishCode} (done : writeCall appending s arg.cutWord arg.cutText = .ok (code, after)) :
    writeCommon arg appending s =
      .ok (if code.value < 0 then failed (if appending then "append" else "write") code else [], after) := by
  have name : CString.ofBytes arg.cutWord.chars = arg.cutWord := CString.ofBytes_chars _
  have text : CString.ofBytes ((arg.chars.drop arg.cutWord.chars.length).dropWhile (· = 32)) = arg.cutText :=
    CString.ofBytes_chars arg.cutText
  rw [writeCommon, if_neg given]
  simp only [cutName_word trimmed, name, text]
  rw [writeCall] at done
  rw [done]
  rfl

/-- The line changes the tree as the call with its second word and the text behind it. -/
def ActsOnNamed (m : Machine σ) : Prop :=
  let arg := (CString.ofBytes line.bytes).afterWord
  ∃ out after code, execute ata line.bytes m = .ok (out, after) ∧
    writeCall appending m.fish arg.firstWord arg.afterWord = .ok (code, after.fish)

variable {line appending}

theorem execute_write (ended : 0 ∈ line.bytes) (command : (CString.ofBytes line.bytes).firstWord = writeWord appending)
    {out : List Event} {s : Fish} (done : writeCommon (CString.ofBytes line.bytes).afterWord appending m.fish = .ok (out, s)) :
    execute ata line.bytes m = .ok (out, { m with fish := s }) := by
  cases appending with
  | false =>
    have ran : execute ata line.bytes m = CommandFn.call ata _ m .write := execute_word ata m ended (by decide) command
    rw [ran, CommandFn.call, done]
    rfl
  | true =>
    have ran : execute ata line.bytes m = CommandFn.call ata _ m .append := execute_word ata m ended (by decide) command
    rw [ran, CommandFn.call, done]
    rfl

/-- The line runs to the state that the call with the cut word and text ends in. -/
theorem actsOnNamed_iff (ended : 0 ∈ line.bytes) (command : (CString.ofBytes line.bytes).firstWord = writeWord appending)
    (given : (CString.ofBytes line.bytes).afterWord.chars ≠ []) {code : FishCode} {after : Fish}
    (done : writeCall appending m.fish (CString.ofBytes line.bytes).afterWord.cutWord
      (CString.ofBytes line.bytes).afterWord.cutText = .ok (code, after)) :
    ActsOnNamed ata line appending m ↔ ∃ code, writeCall appending m.fish (CString.ofBytes line.bytes).afterWord.firstWord
      (CString.ofBytes line.bytes).afterWord.afterWord = .ok (code, after) := by
  have ran := execute_write ata ended command (writeCommon_ok appending given (CString.afterWord_trimmed _) done)
  constructor
  · intro ⟨out, last, code, ran', call⟩
    obtain rfl := (Prod.mk.inj (Except.ok.inj (ran.symm.trans ran'))).2
    exact ⟨code, call⟩
  · intro ⟨code, call⟩
    exact ⟨_, _, code, ran, call⟩

/-- A second word of more than 31 characters is cut, and the line acts on a file that was
not named. -/
theorem write_acts_on_named_iff (sound : Sound m.fish) (ended : 0 ∈ line.bytes)
    (command : (CString.ofBytes line.bytes).firstWord = writeWord appending)
    (given : (CString.ofBytes line.bytes).afterWord.chars ≠ []) :
    let arg := (CString.ofBytes line.bytes).afterWord
    ActsOnNamed ata line appending m ↔
      arg.firstWord.chars.length ≤ 31 ∨ ∀ old, sound.view.look arg.cutWord = some (.file old) →
        if appending then 512 < old.length + (arg.chars.drop 31).length else old = arg.chars.drop 31 := by
  intro arg
  have trimmed : arg.chars.dropWhile (· = 32) = arg.chars := CString.afterWord_trimmed _
  have room : arg.chars.length ≤ 256 := (CString.afterWord_length _).trans (line_short line)
  have fits : arg.cutText.chars.length ≤ 256 := cutText_length.trans room
  let text : Text := ⟨arg.cutText, by omega⟩
  obtain ⟨code, after, done, _⟩ := sound.writeCall_edits appending arg.cutWord text
  rw [actsOnNamed_iff ata ended command given done]
  by_cases short : arg.firstWord.chars.length ≤ 31
  · rw [← cutWord_short short, ← cutText_short trimmed short]
    exact ⟨fun _ => .inl (by rwa [cutWord_short short]), fun _ => ⟨code, done⟩⟩
  -- No entry has a name that long, so the call with the whole word leaves the tree alone.
  have long : 31 < arg.firstWord.chars.length := Nat.not_le.mp short
  obtain ⟨d, here, _, _⟩ := sound.cwd
  have refused := sound.writeCall_absent appending here (sound.child_long long) arg.afterWord
  have unchanged : (∃ code, writeCall appending m.fish arg.firstWord arg.afterWord = .ok (code, after)) ↔
      ∃ code, writeCall appending m.fish arg.cutWord text.toCString = .ok (code, m.fish) := by
    rw [refused, done]
    constructor
    · intro ⟨_, same⟩
      exact ⟨code, by rw [(Prod.mk.inj (Except.ok.inj same)).2]⟩
    · intro ⟨_, same⟩
      exact ⟨.noent, by rw [(Prod.mk.inj (Except.ok.inj same)).2]⟩
  obtain ⟨cut, more⟩ := cutText_long trimmed long
  rw [unchanged, or_iff_right short, ← cut]
  exact sound.writeCall_same appending arg.cutWord text fits (cut ▸ more)

/-- The shell on a given tree, with no disk attached. -/
def atShell (s : Fish) : Machine Drive := ⟨userInit, s, ⟨false, false, fun _ _ => 0, fun _ => false, 0⟩, 0⟩

theorem write_acts_on_named_of_spaces :
    ActsOnNamed drive (lineOf "  append  notes   hi  there") true (atShell fishInit) :=
  (write_acts_on_named_iff drive (m := atShell fishInit) fishInit_valid.toSound (by decide +kernel)
    (by decide +kernel) (by decide +kernel)).mpr (.inl (by decide +kernel))

/-- A name as long as names can be. -/
def longest : FishCall := .create ⟨List.replicate 31 97, by decide⟩

/-- The word is one letter longer than the name. -/
def overlong : Buffer lineMax := lineOf "append aaaaaaaaaaaaaaaaaaaaaaaaaaaaaaaa"

theorem write_acts_on_other_file : ¬ ∀ (m : Machine Drive) (line : Buffer lineMax) (appending : Bool), Reached m.fish →
    0 ∈ line.bytes → (CString.ofBytes line.bytes).firstWord = writeWord appending →
    (CString.ofBytes line.bytes).afterWord.chars ≠ [] → ActsOnNamed drive line appending m := by
  intro all
  obtain ⟨s, ran, _⟩ := run_valid [longest] fishInit_valid
  obtain ⟨out, after, code, executed, called⟩ := all (atShell s) overlong true ⟨_, ran⟩ (by decide +kernel)
    (by decide +kernel) (by decide +kernel)
  have line : (runCalls fishInit [longest]).toOption.map (fun s =>
      (execute drive overlong.bytes (atShell s)).toOption.map fun r => (r.2.fish.nodes 1).size) = some (some 1) := by
    rfl
  have call : (runCalls fishInit [longest]).toOption.map (fun s =>
      (writeCall true s (CString.ofBytes overlong.bytes).afterWord.firstWord
        (CString.ofBytes overlong.bytes).afterWord.afterWord).toOption.map fun r => (r.2.nodes 1).size) = some (some 0) := by
    rfl
  rw [ran] at line call
  have left : (after.fish.nodes 1).size = 1 := by
    simpa [executed, Except.toOption] using line
  have right : (after.fish.nodes 1).size = 0 := by
    simpa [show writeCall true s _ _ = _ from called, Except.toOption] using call
  rw [left] at right
  cases right

end Writing

end Seaweed
