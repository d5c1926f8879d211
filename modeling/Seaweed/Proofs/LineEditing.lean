import Seaweed.ReadLine
import Seaweed.Proofs.VgaSteps

/-! The line that `read_line` holds and the cells that show it. The length of the line and
the cursor are kept apart by the code; the invariant ties them through the position at
which the line began and the number of scrolls since. -/

namespace Seaweed

variable {v : Vga} {s : LineInput} {held : List UInt8} {key : Int32} {c : UInt8} {k : ℕ}

/-- What the array and the screen show of the characters held, `k` scrolls after the entry
to `read_line` with the screen `v`. -/
structure LineShown (v : Vga) (held : List UInt8) (s : LineInput) (k : ℕ) : Prop where
  length : s.length = held.length
  short : s.length ≤ 255
  line : s.line.bytes.take s.length = held
  scrolls : s.screen.scrolls = v.scrolls + k
  start : vgaWidth * k ≤ v.position
  inside : s.screen.Inside
  cursor : s.screen.position = v.position + s.length - vgaWidth * k
  shown : ∀ j c, held[j]? = some c → s.screen.cells (v.position - vgaWidth * k + j) = entry c v.color
  above : ∀ i, i < v.position - vgaWidth * k → s.screen.cells i = v.cells (i + vgaWidth * k)

/-- A scroll comes only with the line's last cell on the bottom row, so it never takes the
start of the line off the screen. -/
structure Editing (v : Vga) (held : List UInt8) (s : LineInput) (k : ℕ) : Prop where
  length : s.length = held.length
  short : held.length ≤ 255
  line : ∀ j (inside : j < lineMax) c, held[j]? = some c → s.line ⟨j, inside⟩ = c
  scrolls : s.screen.scrolls = v.scrolls + k
  color : s.screen.color = v.color
  deep : k = 0 ∨ vgaWidth * k + 1665 ≤ v.position
  inside : s.screen.Inside
  cursor : s.screen.position + vgaWidth * k = v.position + held.length
  shown : ∀ j i c, held[j]? = some c → i + vgaWidth * k = v.position + j → s.screen.cells i = entry c v.color
  above : ∀ i, i + vgaWidth * k < v.position → s.screen.cells i = v.cells (i + vgaWidth * k)

theorem readLine_start (line : Buffer lineMax) (inside : v.Inside) : Editing v [] ⟨line, 0, v⟩ 0 where
  length := rfl
  short := Nat.zero_le _
  line := fun _ _ _ found => by cases found
  scrolls := rfl
  color := rfl
  deep := .inl rfl
  inside := inside
  cursor := rfl
  shown := fun _ _ _ found => by cases found
  above := fun _ _ => rfl

theorem Editing.start (editing : Editing v held s k) : vgaWidth * k ≤ v.position := by
  rcases editing.deep with rfl | deep
  · exact Nat.zero_le _
  · omega

theorem held_append {j : ℕ} {letter : UInt8} (found : (held ++ [c])[j]? = some letter) :
    j = held.length ∧ letter = c ∨ j < held.length ∧ held[j]? = some letter := by
  by_cases new : j = held.length
  · subst new
    rw [List.getElem?_concat_length] at found
    exact .inl ⟨rfl, (Option.some.inj found).symm⟩
  · have bound := (List.getElem?_eq_some_iff.mp found).1
    rw [List.length_append, List.length_singleton] at bound
    have old : j < held.length := by omega
    rw [List.getElem?_append_left old] at found
    exact .inr ⟨old, found⟩

/-- A character is stored at the end of the line and shown at the cursor. -/
theorem Editing.append (editing : Editing v held s k) (room : held.length < 255) (c : UInt8) (inside : s.length < lineMax) :
    ∃ k', Editing v (held ++ [c])
      ⟨Function.update s.line ⟨s.length, inside⟩ c, s.length + 1, updateCursor (s.screen.typed c)⟩ k' := by
  obtain ⟨d, last, scrolls, cursor, color, cell, before⟩ := editing.inside.typed_spec c
  have start := editing.start
  have old := editing.cursor
  have length := editing.length
  have grown : (held ++ [c]).length = held.length + 1 := List.length_append
  have total : vgaWidth * (k + d) = vgaWidth * k + vgaWidth * d := Nat.mul_add _ _ _
  have deep : k + d = 0 ∨ vgaWidth * (k + d) + 1665 ≤ v.position := by
    rcases last with rfl | ⟨rfl, ends⟩
    · exact editing.deep
    · right
      simp only [vgaHeight, vgaWidth] at *
      omega
  have start' : vgaWidth * (k + d) ≤ v.position := by
    rcases deep with zero | deep
    · rw [zero, Nat.mul_zero]
      exact Nat.zero_le _
    · omega
  have inside' : (s.screen.typed c).Inside := Vga.wrapped_inside editing.inside.row
  refine ⟨k + d, by rw [grown, ← length], by omega, fun j low letter found => ?_, ?_, color.trans editing.color, deep,
    ⟨inside'.row, inside'.col⟩, ?_, fun j i letter found place => ?_, fun i low => ?_⟩
  · rcases held_append found with ⟨new, rfl⟩ | ⟨bound, found'⟩
    · rw [← length] at new
      subst new
      exact Function.update_self ..
    · have apart : (⟨j, low⟩ : Fin lineMax) ≠ ⟨s.length, inside⟩ := fun same => by
        have := congrArg Fin.val same
        dsimp only at this
        omega
      exact (Function.update_of_ne apart ..).trans (editing.line j low letter found')
  · exact scrolls.trans (by rw [editing.scrolls, Nat.add_assoc])
  · change (s.screen.typed c).position + vgaWidth * (k + d) = _
    omega
  · change (s.screen.typed c).cells i = _
    rcases held_append found with ⟨rfl, rfl⟩ | ⟨bound, found'⟩
    · have here : i = s.screen.position - vgaWidth * d := by omega
      rw [here, cell, editing.color]
    · rw [before i (by omega)]
      exact editing.shown j (i + vgaWidth * d) letter found' (by omega)
  · change (s.screen.typed c).cells i = _
    rw [before i (by omega), editing.above (i + vgaWidth * d) (by omega), total]
    congr 1
    omega

/-- The last character goes from the line and from the screen. -/
theorem Editing.drop (editing : Editing v held s k) (some : 0 < held.length) :
    Editing v held.dropLast { s with length := s.length - 1, screen := updateCursor s.screen.erased } k := by
  have start := editing.start
  have old := editing.cursor
  obtain ⟨cursor, scrolls, color, before⟩ := s.screen.erased_spec (by omega)
  have length := editing.length
  have shrunk : held.dropLast.length = held.length - 1 := List.length_dropLast
  have kept : ∀ {j : ℕ} {letter : UInt8}, held.dropLast[j]? = .some letter → held[j]? = .some letter ∧ j < held.length - 1 := by
    intro j letter found
    obtain ⟨bound, same⟩ := List.getElem?_eq_some_iff.mp found
    rw [shrunk] at bound
    rw [List.getElem_dropLast] at same
    exact ⟨List.getElem?_eq_some_iff.mpr ⟨by omega, same⟩, bound⟩
  have inside' : s.screen.erased.Inside := editing.inside.put 8
  refine ⟨by rw [shrunk, ← length], ?_, fun j low letter found => editing.line j low letter (kept found).1,
    scrolls.trans editing.scrolls, color.trans editing.color, editing.deep, ⟨inside'.row, inside'.col⟩, ?_,
    fun j i letter found place => ?_, fun i low => ?_⟩
  · have := editing.short
    omega
  · change s.screen.erased.position + vgaWidth * k = _
    omega
  · obtain ⟨found', bound⟩ := kept found
    exact (before i (by omega)).trans (editing.shown j i letter found' place)
  · exact (before i (by omega)).trans (editing.above i low)

theorem key_letter (low : ¬ key < 32) (high : ¬ 255 < key) : 32 ≤ key.toUInt32.toUInt8.toNat := by
  have low' : ¬ key.toInt < 32 := fun less => low (Int32.lt_iff_toInt_lt.mpr less)
  have high' : ¬ 255 < key.toInt := fun less => high (Int32.lt_iff_toInt_lt.mpr less)
  have value : key.toInt = key.toUInt32.toBitVec.toInt := rfl
  have bound := key.toUInt32.toBitVec.isLt
  have byte : key.toUInt32.toUInt8.toNat = key.toUInt32.toBitVec.toNat % 256 := UInt32.toNat_toUInt8 _
  rw [BitVec.toInt_eq_toNat_cond] at value
  split at value <;> omega

/-- The control characters of `vga_putchar` are all below 32. -/
theorem put_letter (v : Vga) (letter : 32 ≤ c.toNat) : v.put c = v.typed c := by
  have other : ∀ d : UInt8, d.toNat < 32 → c ≠ d := by
    rintro d low rfl
    omega
  rw [Vga.put, if_neg (other 10 (by decide)), if_neg (other 13 (by decide)), if_neg (other 8 (by decide)),
    if_neg (other 9 (by decide))]

/-- One key other than the end of the line. -/
theorem Editing.turn (editing : Editing v held s k) (more : key ≠ 10) :
    ∃ after k', readKey s key = some (false, after) ∧ Editing v (editKey held key) after k' := by
  have length := editing.length
  unfold readKey editKey
  by_cases none : key = 0
  · subst none
    exact ⟨s, k, rfl, editing⟩
  rw [if_neg none, if_neg more]
  by_cases back : key = 8
  · rw [if_pos back, if_pos back]
    by_cases positive : 0 < s.length
    · have put : s.screen.put 8 = s.screen.erased := rfl
      refine ⟨_, k, ?_, editing.drop (by omega)⟩
      rw [if_pos positive, vgaPutchar_eq editing.inside, put]
      rfl
    · have empty : held = [] := List.length_eq_zero_iff.mp (by omega)
      subst empty
      exact ⟨s, k, if_neg positive, editing⟩
  rw [if_neg back, if_neg back]
  by_cases other : 255 < key ∨ key < 32
  · have outside : ¬ (32 ≤ key ∧ key ≤ 255 ∧ held.length < 255) := by
      rintro ⟨low, high, _⟩
      rcases other with large | small
      · exact Int32.not_lt.mpr high large
      · exact Int32.not_lt.mpr low small
    rw [if_pos other, if_neg outside]
    exact ⟨s, k, rfl, editing⟩
  obtain ⟨high, low⟩ := not_or.mp other
  rw [if_neg other]
  by_cases full : lineMax - 1 ≤ s.length
  · have outside : ¬ (32 ≤ key ∧ key ≤ 255 ∧ held.length < 255) := by
      rintro ⟨_, _, room⟩
      simp only [lineMax] at full
      omega
    rw [if_pos full, if_neg outside]
    exact ⟨s, k, rfl, editing⟩
  · have room : held.length < 255 := by
      simp only [lineMax] at full
      omega
    have place : s.length < lineMax := by
      simp only [lineMax] at full ⊢
      omega
    obtain ⟨k', editing'⟩ := editing.append room key.toUInt32.toUInt8 place
    rw [if_neg full, if_pos ⟨Int32.not_lt.mp low, Int32.not_lt.mp high, room⟩]
    refine ⟨_, k', ?_, editing'⟩
    simp only [LineInput.store, dif_pos place, Option.bind_eq_bind, Option.bind_some, vgaPutchar_eq editing.inside,
      put_letter _ (key_letter low high)]

theorem Editing.keys (editing : Editing v held s k) {keys : List Int32} (unfinished : 10 ∉ keys) :
    ∃ after k', readKeys s keys = some (false, after) ∧ Editing v (keys.foldl editKey held) after k' := by
  induction keys generalizing s held k with
  | nil => exact ⟨s, k, rfl, editing⟩
  | cons key rest ih =>
    obtain ⟨here, later⟩ := not_or.mp (mt List.mem_cons.mpr unfinished)
    obtain ⟨middle, k', turn, editing'⟩ := editing.turn (Ne.symm here)
    obtain ⟨after, k'', ran, editing''⟩ := ih editing' later
    refine ⟨after, k'', ?_, editing''⟩
    rw [readKeys, turn]
    exact ran

theorem Editing.line_shown (editing : Editing v held s k) : LineShown v held s k where
  length := editing.length
  short := by
    rw [editing.length]
    exact editing.short
  line := by
    have length := editing.length
    have short := editing.short
    apply List.ext_getElem
    · rw [List.length_take, Buffer.bytes_length, lineMax]
      omega
    · intro j low high
      simp only [List.getElem_take, Buffer.bytes, List.getElem_ofFn]
      exact editing.line j (by simp only [lineMax]; omega) _ (List.getElem?_eq_getElem high)
  scrolls := editing.scrolls
  start := editing.start
  inside := editing.inside
  cursor := by
    have cursor := editing.cursor
    have length := editing.length
    omega
  shown := by
    intro j c found
    have start := editing.start
    exact editing.shown j _ c found (by omega)
  above := fun i low => editing.above i (by omega)

/-- Whatever keys come before the end of the line, the line is the reference editor's, the
cells from its start on show it, and what stood before it has only moved up. -/
theorem line_and_screen_agree (line : Buffer lineMax) (v : Vga) (row : v.row < vgaHeight) (col : v.col < vgaWidth)
    {keys : List Int32} (unfinished : 10 ∉ keys) :
    ∃ s k, readLine line v keys = some (false, s) ∧ LineShown v (edited keys) s k := by
  obtain ⟨s, k, ran, editing⟩ := (readLine_start line ⟨row, col⟩).keys unfinished
  exact ⟨s, k, ran, editing.line_shown⟩

theorem line_and_screen_agree_at_corner :
    ∃ s k, readLine (fun _ => 0) ⟨fun _ => 0, 24, 79, 7, 0, 0, 0⟩ [97, 98, 8, 8, 8, 99, 0x100] = some (false, s) ∧
      LineShown ⟨fun _ => 0, 24, 79, 7, 0, 0, 0⟩ (edited [97, 98, 8, 8, 8, 99, 0x100]) s k :=
  line_and_screen_agree (fun _ => 0) ⟨fun _ => 0, 24, 79, 7, 0, 0, 0⟩ (by decide) (by decide) (by decide)

end Seaweed
