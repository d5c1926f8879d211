import Seaweed.Library.Runs
import Seaweed.Page
import Seaweed.Proofs.VgaSteps

/-! The screen as a window on the endless page. One character moves both in the same way,
and a scroll is the window moving down a row. -/

namespace Seaweed
open Library

variable {v : Vga} {p : Page} {attr c : UInt8}

/-- Below the cursor's row the page is blank, so the line that a scroll brings in is. -/
structure Window (attr : UInt8) (p : Page) (v : Vga) : Prop where
  shows : Shows p v
  color : v.color = attr
  fresh : ∀ r c, p.row < r → p.cells r c = entry 32 attr

/-- With the cursor on the bottom row the window goes down with it. -/
theorem Window.scrolled (window : Window attr p v) (last : v.row + 1 = vgaHeight) :
    Shows p.lineDown { v with col := 0, row := v.row + 1 }.scrolled := by
  have row := window.shows.row
  have deep : vgaHeight - 1 ≤ p.row := by
    simp only [Page.top, vgaHeight] at row last ⊢
    omega
  have moved : p.lineDown.top = p.top + 1 := by
    simp only [Page.top, Page.lineDown, vgaHeight] at deep ⊢
    omega
  refine ⟨fun r c low narrow => ?_, ?_, rfl⟩
  · rw [moved]
    by_cases bottom : r = vgaHeight - 1
    · subst bottom
      have under : p.row < p.top + 1 + (vgaHeight - 1) := by
        simp only [Page.top] at deep ⊢
        omega
      have blank : v.blank = entry 32 attr := by rw [Vga.blank, window.color]
      exact (Vga.scrolled_bottom narrow).trans (blank.trans (window.fresh _ c under).symm)
    · have next : r * vgaWidth + c + vgaWidth = (r + 1) * vgaWidth + c := by
        simp only [vgaWidth]
        omega
      have place : p.top + 1 + r = p.top + (r + 1) := by omega
      rw [Vga.scrolled_up (by simp only [vgaHeight, vgaWidth] at low narrow bottom ⊢; omega), next, place]
      exact window.shows.cells (r + 1) c (by omega) narrow
  · rw [moved]
    simp only [Vga.scrolled, Page.lineDown, Page.top] at deep ⊢
    omega

theorem Window.lineDown (window : Window attr p v) : Window attr p.lineDown v.lineDown := by
  have row := window.shows.row
  have below : ∀ r c, p.lineDown.row < r → p.lineDown.cells r c = entry 32 attr := fun r c later =>
    window.fresh r c (Nat.lt_of_succ_lt later)
  unfold Vga.lineDown
  split
  next last => exact ⟨window.scrolled last, window.color, below⟩
  next more =>
    have high : p.row < vgaHeight - 1 := by
      simp only [Page.top, vgaHeight] at row more ⊢
      omega
    have here : p.top = 0 := by
      simp only [Page.top]
      omega
    have still : p.lineDown.top = 0 := by
      simp only [Page.top, Page.lineDown]
      omega
    refine ⟨⟨fun r c low narrow => ?_, ?_, rfl⟩, window.color, below⟩
    · have old := window.shows.cells r c low narrow
      rw [here] at old
      rw [still]
      exact old
    · rw [still, row, here]
      rfl

theorem Window.wrapped (window : Window attr p v) : Window attr p.wrapped v.wrapped := by
  unfold Page.wrapped Vga.wrapped
  rw [window.shows.col]
  split
  next => exact window.lineDown
  next => exact window

theorem Window.fill (window : Window attr p v) {target : ℕ} (narrow : target ≤ vgaWidth) (ahead : v.col ≤ target)
    (value : UInt16) :
    Window attr (p.fillTo target value) { v.filled v.position (target - v.col) value with col := target } := by
  have row := window.shows.row
  have col := window.shows.col
  have above : p.top ≤ p.row := Nat.sub_le _ _
  refine ⟨⟨fun r c low narrow' => ?_, row, rfl⟩, window.color, fun r c later => ?_⟩
  · have same : (v.position ≤ r * vgaWidth + c ∧ r * vgaWidth + c < v.position + (target - v.col)) ↔
        p.top + r = p.row ∧ p.col ≤ c ∧ c < target := by
      simp only [Vga.position, vgaWidth] at narrow narrow' ⊢
      omega
    have old := window.shows.cells r c low narrow'
    change (if _ then value else v.cells (r * vgaWidth + c)) = if _ then value else p.cells (p.top + r) c
    rw [old]
    exact if_congr same rfl rfl
  · have elsewhere : ¬ (r = p.row ∧ p.col ≤ c ∧ c < target) := fun here => Nat.lt_irrefl _ (here.1 ▸ later)
    exact (if_neg elsewhere).trans (window.fresh r c later)

/-- Every character but a backspace does to the screen what it does to the page. -/
theorem Window.put (window : Window attr p v) (inside : v.Inside) (plain : c ≠ 8) :
    Window attr (p.putchar attr c) (v.put c) := by
  have col := inside.col
  have blank : v.blank = entry 32 attr := by rw [Vga.blank, window.color]
  unfold Page.putchar Vga.put
  split
  next => exact window.lineDown
  split
  next => exact ⟨⟨window.shows.cells, window.shows.row, rfl⟩, window.color, window.fresh⟩
  split
  next =>
    have narrow : (v.col + 8) / 8 * 8 ≤ vgaWidth := by
      simp only [vgaWidth] at col ⊢
      omega
    have filled := window.fill narrow (by omega) v.blank
    rw [window.shows.col] at filled
    rw [blank] at filled
    unfold Vga.tabbed
    rw [blank, window.shows.col]
    exact filled.wrapped
  next =>
    have narrow : v.col + 1 ≤ vgaWidth := col
    have filled := window.fill narrow (by omega) (entry c v.color)
    rw [Nat.add_sub_cancel_left] at filled
    unfold Vga.typed
    rw [window.color, window.shows.col] at *
    exact filled.wrapped

theorem Window.run (window : Window attr p v) (inside : v.Inside) {text : List UInt8} (plain : 8 ∉ text) :
    ∃ after, vgaWrite v text = some after ∧ Window attr (text.foldl (Page.putchar attr) p) after ∧ after.Inside := by
  have each : ∀ (v : Vga) (p : Page), ∀ c ∈ text, Window attr p v ∧ v.Inside →
      ∃ after, vgaPutchar v c = some after ∧ Window attr (p.putchar attr c) after ∧ after.Inside := by
    rintro v p c member ⟨window, inside⟩
    have other : c ≠ 8 := fun same => plain (same ▸ member)
    have moved := window.put inside other
    have inside' := inside.put c
    refine ⟨_, vgaPutchar_eq inside c, ⟨?_, moved.color, moved.fresh⟩, inside'.row, inside'.col⟩
    exact ⟨moved.shows.cells, moved.shows.row, moved.shows.col⟩
  exact foldlM_follows each ⟨window, inside⟩

theorem vgaClear_window (v : Vga) :
    ∃ cleared, vgaClear v = some cleared ∧ Window v.color (Page.clear v.color) cleared ∧ cleared.Inside := by
  have corner : 0 < vgaHeight ∧ 0 < vgaWidth := by decide
  refine ⟨_, vgaClear_eq v, ⟨⟨fun r c low narrow => ?_, rfl, rfl⟩, rfl, fun _ _ _ => rfl⟩, corner.1, corner.2⟩
  refine if_pos ⟨Nat.zero_le _, ?_⟩
  simp only [vgaHeight, vgaWidth] at low narrow ⊢
  omega

/-- After `vga_clear` and any characters but backspaces the screen shows the last 25 rows
of the page. -/
theorem screen_shows_page (v : Vga) {text : List UInt8} (plain : 8 ∉ text) :
    ∃ cleared after, vgaClear v = some cleared ∧ vgaWrite cleared text = some after ∧
      Shows (text.foldl (Page.putchar v.color) (Page.clear v.color)) after := by
  obtain ⟨cleared, done, window, inside⟩ := vgaClear_window v
  obtain ⟨after, ran, window', _⟩ := window.run inside plain
  exact ⟨cleared, after, done, ran, window'.shows⟩

/-- Thirty lines scroll the screen, and a word with a tab and a carriage return follows. -/
theorem screen_shows_page_of_lines :
    ∃ cleared after, vgaClear ⟨fun _ => 0, 3, 4, 7, 0, 0, 0⟩ = some cleared ∧
      vgaWrite cleared (List.replicate 30 (10 : UInt8) ++ [97, 9, 98, 13, 99]) = some after ∧
      Shows ((List.replicate 30 (10 : UInt8) ++ [97, 9, 98, 13, 99]).foldl (Page.putchar 7) (Page.clear 7)) after :=
  screen_shows_page ⟨fun _ => 0, 3, 4, 7, 0, 0, 0⟩ (by decide)

end Seaweed
