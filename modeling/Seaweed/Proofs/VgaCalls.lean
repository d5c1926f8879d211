import Seaweed.Library.Runs
import Seaweed.Proofs.VgaSteps

/-! The cursor over any sequence of calls. Every call leaves it on the screen, whatever it
did in between, and tells the card where it stands. -/

namespace Seaweed
open Library

variable {v : Vga}

/-- The number that the two cursor registers hold. -/
def Vga.shownAt (v : Vga) : ℕ := v.cursorHigh.toNat * 256 + v.cursorLow.toNat

structure Vga.Steady (v : Vga) : Prop where
  inside : v.Inside
  shown : v.shownAt = v.row * vgaWidth + v.col

/-- The two bytes that go to the card carry the whole position. -/
theorem high_low (pos : UInt16) : ((pos >>> 8) &&& 0xFF).toUInt8.toNat * 256 + (pos &&& 0xFF).toUInt8.toNat = pos.toNat := by
  have small := pos.toNat_lt
  have low : pos.toNat &&& 255 = pos.toNat % 2 ^ 8 := Nat.and_two_pow_sub_one_eq_mod _ 8
  have high : (pos.toNat >>> 8) &&& 255 = pos.toNat >>> 8 % 2 ^ 8 := Nat.and_two_pow_sub_one_eq_mod _ 8
  have shift : pos.toNat >>> 8 = pos.toNat / 2 ^ 8 := Nat.shiftRight_eq_div_pow _ 8
  have first : ((pos >>> 8) &&& 0xFF).toUInt8.toNat = ((pos.toNat >>> 8) &&& 255) % 2 ^ 8 := rfl
  have second : (pos &&& 0xFF).toUInt8.toNat = (pos.toNat &&& 255) % 2 ^ 8 := rfl
  rw [first, second, low, high, shift]
  omega

theorem updateCursor_steady (inside : v.Inside) : (updateCursor v).Steady := by
  refine ⟨⟨inside.row, inside.col⟩, ?_⟩
  have low := inside.position_lt
  refine (high_low _).trans ?_
  apply UInt16.toNat_ofNat_of_lt
  simp only [Vga.position, vgaHeight, vgaWidth, UInt16.size] at low ⊢
  omega

theorem vgaClear_steady (v : Vga) : ∃ after, vgaClear v = some after ∧ after.Steady := by
  refine ⟨_, vgaClear_eq v, updateCursor_steady ⟨?_, ?_⟩⟩
  · exact Nat.zero_lt_succ 24
  · exact Nat.zero_lt_succ 79

theorem Vga.Steady.putchar (steady : v.Steady) (c : UInt8) : ∃ after, vgaPutchar v c = some after ∧ after.Steady :=
  ⟨_, vgaPutchar_eq steady.inside c, updateCursor_steady (steady.inside.put c)⟩

theorem Vga.Steady.write (steady : v.Steady) (text : List UInt8) : ∃ after, vgaWrite v text = some after ∧ after.Steady :=
  foldlM_keeps (fun _ c _ kept => kept.putchar c) steady

theorem vgaCursorLeft_steady (inside : v.Inside) : (vgaCursorLeft v).Steady := by
  have row := inside.row
  have col := inside.col
  apply updateCursor_steady
  split
  next => exact ⟨row, Nat.lt_of_le_of_lt (Nat.sub_le _ _) col⟩
  split
  next => exact ⟨Nat.lt_of_le_of_lt (Nat.sub_le _ _) row, Nat.lt_succ_self 79⟩
  next => exact inside

theorem vgaCursorRight_steady (inside : v.Inside) : (vgaCursorRight v).Steady := by
  apply updateCursor_steady
  split
  next more => exact ⟨inside.row, Nat.add_lt_of_lt_sub more⟩
  split
  next more => exact ⟨Nat.add_lt_of_lt_sub more, Nat.zero_lt_succ 79⟩
  next => exact inside

theorem vgaCursorUp_steady (inside : v.Inside) : (vgaCursorUp v).Steady := by
  apply updateCursor_steady
  split
  next => exact ⟨Nat.lt_of_le_of_lt (Nat.sub_le _ _) inside.row, inside.col⟩
  next => exact inside

theorem vgaCursorDown_steady (inside : v.Inside) : (vgaCursorDown v).Steady := by
  apply updateCursor_steady
  split
  next more => exact ⟨Nat.add_lt_of_lt_sub more, inside.col⟩
  next => exact inside

theorem Vga.Steady.step (steady : v.Steady) (call : VgaCall) : ∃ after, call.step v = some after ∧ after.Steady := by
  cases call with
  | putchar c => exact steady.putchar c
  | write text => exact steady.write text
  | clear => exact vgaClear_steady v
  | setColor fg bg => exact ⟨_, rfl, ⟨steady.inside.row, steady.inside.col⟩, steady.shown⟩
  | cursorLeft => exact ⟨_, rfl, vgaCursorLeft_steady steady.inside⟩
  | cursorRight => exact ⟨_, rfl, vgaCursorRight_steady steady.inside⟩
  | cursorUp => exact ⟨_, rfl, vgaCursorUp_steady steady.inside⟩
  | cursorDown => exact ⟨_, rfl, vgaCursorDown_steady steady.inside⟩

theorem Vga.Steady.run (steady : v.Steady) (calls : List VgaCall) : ∃ after, runVga v calls = some after ∧ after.Steady :=
  foldlM_keeps (fun _ call _ kept => kept.step call) steady

/-- No sequence of calls stores outside the screen, and after each the cursor is on it and
shown where it is. -/
theorem vga_stays_on_screen (v : Vga) (calls : List VgaCall) :
    ∃ start after, vgaInit v = some start ∧ runVga start calls = some after ∧
      after.row < vgaHeight ∧ after.col < vgaWidth ∧ after.shownAt = after.row * vgaWidth + after.col := by
  obtain ⟨start, cleared, steady⟩ := vgaClear_steady (vgaSetColor v 7 0)
  obtain ⟨after, ran, kept⟩ := steady.run calls
  exact ⟨start, after, cleared, ran, kept.inside.row, kept.inside.col, kept.shown⟩

end Seaweed
