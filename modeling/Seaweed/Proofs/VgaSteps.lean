import Seaweed.Vga

/-! What one character does to a screen whose cursor is on it, without the loops. -/

namespace Seaweed
open Library

variable {v : Vga} {c : UInt8} {i n first : ℕ} {value : UInt16}

structure Vga.Inside (v : Vga) : Prop where
  row : v.row < vgaHeight
  col : v.col < vgaWidth

/-- The linear position of the cursor. -/
def Vga.position (v : Vga) : ℕ := v.row * vgaWidth + v.col

section Loops

def Vga.filled (v : Vga) (first count : ℕ) (value : UInt16) : Vga :=
  { v with cells := fun i => if first ≤ i ∧ i < first + count then value else v.cells i }

theorem Vga.filled_zero (v : Vga) (first : ℕ) (value : UInt16) : v.filled first 0 value = v := by
  have none : ∀ i, ¬ (first ≤ i ∧ i < first + 0) := fun i => by omega
  simp only [Vga.filled, none, if_false]

theorem Vga.filled_filled (v : Vga) (first n k : ℕ) (value : UInt16) :
    (v.filled first n value).filled (first + n) k value = v.filled first (n + k) value := by
  unfold Vga.filled
  congr 1
  funext i
  by_cases later : first + n ≤ i ∧ i < first + n + k
  · rw [if_pos later, if_pos (by omega)]
  · rw [if_neg later]
    dsimp only
    by_cases early : first ≤ i ∧ i < first + n
    · rw [if_pos early, if_pos (by omega)]
    · rw [if_neg early, if_neg (by omega)]

theorem poke_inside (inside : i < vgaHeight * vgaWidth) : poke v i value = some (v.filled i 1 value) := by
  rw [poke, if_pos inside, Vga.filled]
  congr 2
  funext j
  by_cases here : j = i
  · subst here
    rw [Function.update_self, if_pos (by omega)]
  · rw [Function.update_of_ne here, if_neg (by omega)]

theorem poke_filled (inside : first + n < vgaHeight * vgaWidth) :
    poke (v.filled first n value) (first + n) value = some (v.filled first (n + 1) value) := by
  rw [poke_inside inside, Vga.filled_filled]

theorem fillRow_eq (v : Vga) (base : ℕ) (inside : base + vgaWidth ≤ vgaHeight * vgaWidth) :
    forCount (fun x v => poke v (base + x) v.blank) 0 vgaWidth v = some (v.filled base vgaWidth v.blank) := by
  have turns := forCount_eq (fun x v => poke v (base + x) v.blank) (fun x => v.filled base x v.blank) 0 vgaWidth
    fun x _ high => poke_filled (by omega)
  rwa [Vga.filled_zero, Nat.zero_add] at turns

theorem vgaClear_eq (v : Vga) :
    vgaClear v = some (updateCursor { v.filled 0 (vgaHeight * vgaWidth) v.blank with row := 0, col := 0 }) := by
  have rows := forCount_eq
    (fun y => forCount (fun x v => poke v (y * vgaWidth + x) v.blank) 0 vgaWidth)
    (fun y => v.filled 0 (y * vgaWidth) v.blank) 0 vgaHeight fun y _ high => by
      have inside : y * vgaWidth + vgaWidth ≤ vgaHeight * vgaWidth := by
        simp only [vgaWidth, vgaHeight] at high ⊢
        omega
      have row := fillRow_eq (v.filled 0 (y * vgaWidth) v.blank) (y * vgaWidth) inside
      have joined := Vga.filled_filled v 0 (y * vgaWidth) vgaWidth v.blank
      rw [Nat.zero_add] at joined
      rw [row, Nat.succ_mul, ← joined]
      rfl
  rw [Nat.zero_mul, Vga.filled_zero, Nat.zero_add] at rows
  rw [vgaClear, rows]
  rfl

def Vga.lifted (v : Vga) (count : ℕ) : Vga :=
  { v with cells := fun i => if i < count then v.cells (i + vgaWidth) else v.cells i }

/-- The cell that is copied lies ahead of those already written. -/
theorem lift_step (v : Vga) (inside : n + vgaWidth < vgaHeight * vgaWidth) :
    (peek (v.lifted n) (n + vgaWidth)).bind (poke (v.lifted n) n) = some (v.lifted (n + 1)) := by
  have ahead : ¬ n + vgaWidth < n := by omega
  rw [peek, if_pos inside, Option.bind_some, poke_inside (by omega)]
  simp only [Vga.lifted, Vga.filled, if_neg ahead]
  congr 2
  funext i
  by_cases here : i = n
  · subst here
    rw [if_pos (by omega), if_pos (by omega)]
  · rw [if_neg (by omega)]
    by_cases early : i < n
    · rw [if_pos early, if_pos (by omega)]
    · rw [if_neg early, if_neg (by omega)]

def Vga.scrolled (v : Vga) : Vga :=
  { (v.lifted ((vgaHeight - 1) * vgaWidth)).filled ((vgaHeight - 1) * vgaWidth) vgaWidth v.blank with
    row := vgaHeight - 1
    scrolls := v.scrolls + 1 }

theorem scroll_eq (v : Vga) : scroll v = some v.scrolled := by
  have rows := forCount_eq
    (fun y => forCount (fun x v => (peek v (y * vgaWidth + x)).bind (poke v ((y - 1) * vgaWidth + x))) 0 vgaWidth)
    (fun y => v.lifted ((y - 1) * vgaWidth)) 1 (vgaHeight - 1) fun y low high => by
      have row := forCount_eq
        (fun x v => (peek v (y * vgaWidth + x)).bind (poke v ((y - 1) * vgaWidth + x)))
        (fun x => v.lifted ((y - 1) * vgaWidth + x)) 0 vgaWidth fun x _ right => by
          have source : y * vgaWidth + x = (y - 1) * vgaWidth + x + vgaWidth := by
            simp only [vgaWidth]
            omega
          rw [source]
          refine lift_step v ?_
          simp only [vgaWidth, vgaHeight] at high right ⊢
          omega
      have ends : (y - 1) * vgaWidth + (0 + vgaWidth) = (y + 1 - 1) * vgaWidth := by
        simp only [vgaWidth]
        omega
      rw [Nat.add_zero, ends] at row
      exact row
  have start : v.lifted ((1 - 1) * vgaWidth) = v := by simp [Vga.lifted]
  rw [start] at rows
  have last := fillRow_eq (v.lifted ((vgaHeight - 1) * vgaWidth)) ((vgaHeight - 1) * vgaWidth) (by decide)
  have ends : (1 + (vgaHeight - 1) - 1) * vgaWidth = (vgaHeight - 1) * vgaWidth := rfl
  rw [ends] at rows
  simp only [scroll, Option.bind_eq_bind, rows, last, Option.bind_some]
  rfl

theorem Vga.scrolled_up {i : ℕ} (low : i + vgaWidth < vgaHeight * vgaWidth) : v.scrolled.cells i = v.cells (i + vgaWidth) := by
  have upper : i < (vgaHeight - 1) * vgaWidth := by
    simp only [vgaHeight, vgaWidth] at low ⊢
    omega
  have outside : ¬ ((vgaHeight - 1) * vgaWidth ≤ i ∧ i < (vgaHeight - 1) * vgaWidth + vgaWidth) := by omega
  exact (if_neg outside).trans (if_pos upper)

theorem Vga.scrolled_bottom {c : ℕ} (narrow : c < vgaWidth) : v.scrolled.cells ((vgaHeight - 1) * vgaWidth + c) = v.blank := by
  apply if_pos
  omega

end Loops

section Characters

def Vga.lineDown (v : Vga) : Vga :=
  if v.row + 1 = vgaHeight then { v with col := 0, row := v.row + 1 }.scrolled else { v with col := 0, row := v.row + 1 }

theorem newLine_eq (v : Vga) : newLine v = some v.lineDown := by
  simp only [newLine, Vga.lineDown]
  split
  next => exact scroll_eq _
  next => rfl

def Vga.erased (v : Vga) : Vga :=
  if v.position = 0 then v
  else
    { v.filled (v.position - 1) 1 v.blank with
      row := (v.position - 1) / vgaWidth
      col := (v.position - 1) % vgaWidth }

theorem Vga.Inside.position_lt (inside : v.Inside) : v.position < vgaHeight * vgaWidth := by
  have row := inside.row
  have col := inside.col
  simp only [Vga.position, vgaHeight, vgaWidth] at row col ⊢
  omega

/-- The cell before the cursor, by its row and column. -/
theorem Vga.erased_to {r c : ℕ} (place : v.position = r * vgaWidth + c + 1) (narrow : c < vgaWidth) :
    v.erased = { v.filled (r * vgaWidth + c) 1 v.blank with row := r, col := c } := by
  have before : v.position - 1 = r * vgaWidth + c := by omega
  have row : (r * vgaWidth + c) / vgaWidth = r := by
    simp only [vgaWidth] at narrow ⊢
    omega
  have col : (r * vgaWidth + c) % vgaWidth = c := by
    simp only [vgaWidth] at narrow ⊢
    omega
  rw [Vga.erased, if_neg (by omega), before, row, col]

theorem backspace_eq (inside : v.Inside) : backspace v = some v.erased := by
  have col := inside.col
  have low := inside.position_lt
  simp only [Vga.position, vgaWidth] at col low
  unfold backspace
  by_cases inner : 0 < v.col
  · have place : v.position = v.row * vgaWidth + (v.col - 1) + 1 := by
      simp only [Vga.position, vgaWidth]
      omega
    rw [if_pos inner, Vga.erased_to place (by simp only [vgaWidth]; omega), poke_inside (by simp only [vgaWidth]; omega)]
    rfl
  rw [if_neg inner]
  by_cases lower : 0 < v.row
  · have place : v.position = (v.row - 1) * vgaWidth + (vgaWidth - 1) + 1 := by
      simp only [Vga.position, vgaWidth]
      omega
    rw [if_pos lower, Vga.erased_to place (by decide), poke_inside (by simp only [vgaWidth]; omega)]
    rfl
  · have zero : v.position = 0 := by
      simp only [Vga.position, vgaWidth]
      omega
    rw [if_neg lower, Vga.erased, if_pos zero]

def Vga.wrapped (v : Vga) : Vga := if vgaWidth ≤ v.col then v.lineDown else v

theorem wrap_eq (v : Vga) : (if vgaWidth ≤ v.col then newLine v else some v) = some v.wrapped := by
  unfold Vga.wrapped
  split
  next => exact newLine_eq v
  next => rfl

def Vga.tabbed (v : Vga) : Vga :=
  ({ v.filled v.position ((v.col + 8) / 8 * 8 - v.col) v.blank with col := (v.col + 8) / 8 * 8 } : Vga).wrapped

theorem tabFrom_eq {target fuel : ℕ} (row : v.row < vgaHeight) (ahead : v.col ≤ target) (narrow : target ≤ vgaWidth)
    (enough : target - v.col < fuel) :
    tabFrom target fuel v = some { v.filled v.position (target - v.col) v.blank with col := target } := by
  induction fuel generalizing v with
  | zero => exact absurd enough (Nat.not_lt_zero _)
  | succ fuel ih =>
    rw [tabFrom]
    by_cases more : v.col < target
    · have inside : v.row * vgaWidth + v.col < vgaHeight * vgaWidth := by
        simp only [vgaHeight, vgaWidth] at row narrow ⊢
        omega
      have left : target - v.col = 1 + (target - (v.col + 1)) := by omega
      rw [if_pos ⟨more, by omega⟩, poke_inside inside]
      have rest := @ih { v.filled (v.row * vgaWidth + v.col) 1 v.blank with col := v.col + 1 } row more (by dsimp only; omega)
      have joined := Vga.filled_filled v v.position 1 (target - (v.col + 1)) v.blank
      rw [left, ← joined]
      exact rest
    · have there : v.col = target := by omega
      rw [if_neg fun both => more both.1, ← there, Nat.sub_self, Vga.filled_zero]

theorem tab_eq (inside : v.Inside) : tab v = some v.tabbed := by
  have col := inside.col
  have ahead : v.col ≤ (v.col + 8) / 8 * 8 := by omega
  have narrow : (v.col + 8) / 8 * 8 ≤ vgaWidth := by
    simp only [vgaWidth] at col ⊢
    omega
  rw [tab, tabFrom_eq inside.row ahead narrow (by omega)]
  exact wrap_eq _

def Vga.typed (v : Vga) (c : UInt8) : Vga :=
  ({ v.filled v.position 1 (entry c v.color) with col := v.col + 1 } : Vga).wrapped

def Vga.put (v : Vga) (c : UInt8) : Vga :=
  if c = 10 then v.lineDown
  else if c = 13 then { v with col := 0 }
  else if c = 8 then v.erased
  else if c = 9 then v.tabbed
  else v.typed c

theorem vgaPutchar_eq (inside : v.Inside) (c : UInt8) : vgaPutchar v c = some (updateCursor (v.put c)) := by
  unfold vgaPutchar Vga.put
  split
  next => rw [newLine_eq]; rfl
  split
  next => rfl
  split
  next => rw [backspace_eq inside]; rfl
  split
  next => rw [tab_eq inside]; rfl
  next =>
    have place : poke v (v.row * vgaWidth + v.col) (entry c v.color) = some (v.filled v.position 1 (entry c v.color)) :=
      poke_inside inside.position_lt
    have edge : vgaWidth ≤ v.col + 1 ↔ v.col + 1 = vgaWidth := by
      have col := inside.col
      omega
    simp only [place, Option.bind_eq_bind, Option.bind_some, Vga.typed, Vga.wrapped, edge]
    by_cases last : v.col + 1 = vgaWidth
    · have last' : (v.filled v.position 1 (entry c v.color)).col + 1 = vgaWidth := last
      rw [if_pos last, if_pos last', newLine_eq]
      rfl
    · have more : ¬ (v.filled v.position 1 (entry c v.color)).col + 1 = vgaWidth := last
      rw [if_neg last, if_neg more]
      rfl

theorem Vga.lineDown_inside (row : v.row < vgaHeight) : v.lineDown.Inside := by
  have left : 0 < vgaWidth := by decide
  have bottom : vgaHeight - 1 < vgaHeight := by decide
  unfold Vga.lineDown
  split
  next => exact ⟨bottom, left⟩
  next more => exact ⟨Nat.lt_of_le_of_ne row more, left⟩

theorem Vga.wrapped_inside (row : v.row < vgaHeight) : v.wrapped.Inside := by
  unfold Vga.wrapped
  split
  next => exact Vga.lineDown_inside row
  next more => exact ⟨row, Nat.not_le.mp more⟩

/-- No character takes the cursor off the screen. -/
theorem Vga.Inside.put (inside : v.Inside) (c : UInt8) : (v.put c).Inside := by
  have low := inside.position_lt
  have left : 0 < vgaWidth := by decide
  unfold Vga.put
  split
  next => exact Vga.lineDown_inside inside.row
  split
  next => exact ⟨inside.row, left⟩
  split
  next =>
    unfold Vga.erased
    split
    next => exact inside
    next =>
      refine ⟨?_, Nat.mod_lt _ (by decide)⟩
      apply Nat.div_lt_of_lt_mul
      rw [Nat.mul_comm]
      omega
  split
  next => exact Vga.wrapped_inside inside.row
  next => exact Vga.wrapped_inside inside.row

end Characters

section Positions

/-- A printed character goes to the cursor, which moves on by one. When that takes it off
the last cell, everything moves up by a line. -/
theorem Vga.Inside.typed_spec (inside : v.Inside) (c : UInt8) :
    ∃ k, (k = 0 ∨ k = 1 ∧ v.position + 1 = vgaHeight * vgaWidth) ∧ (v.typed c).scrolls = v.scrolls + k ∧
      (v.typed c).position + vgaWidth * k = v.position + 1 ∧ (v.typed c).color = v.color ∧
      (v.typed c).cells (v.position - vgaWidth * k) = entry c v.color ∧
      ∀ i, i + vgaWidth * k < v.position → (v.typed c).cells i = v.cells (i + vgaWidth * k) := by
  have row := inside.row
  have col := inside.col
  have here : ∀ i, i = v.position → (v.filled v.position 1 (entry c v.color)).cells i = entry c v.color :=
    fun i same => if_pos (by omega)
  have before : ∀ i, i < v.position → (v.filled v.position 1 (entry c v.color)).cells i = v.cells i :=
    fun i less => if_neg (by omega)
  have place : v.position = v.row * vgaWidth + v.col := rfl
  unfold Vga.typed Vga.wrapped Vga.lineDown
  by_cases last : vgaWidth ≤ v.col + 1
  · rw [if_pos last]
    by_cases bottom : v.row + 1 = vgaHeight
    · have bottom' : (v.filled v.position 1 (entry c v.color)).row + 1 = vgaHeight := bottom
      rw [if_pos bottom']
      have ends : v.position + 1 = vgaHeight * vgaWidth := by
        simp only [vgaHeight, vgaWidth] at row col last bottom place ⊢
        omega
      have moved : ∀ i, i + vgaWidth < vgaHeight * vgaWidth →
          ({ v.filled v.position 1 (entry c v.color) with col := 0, row := v.row + 1 } : Vga).scrolled.cells i =
            (v.filled v.position 1 (entry c v.color)).cells (i + vgaWidth) := fun i low => Vga.scrolled_up low
      simp only [vgaHeight, vgaWidth] at ends moved
      refine ⟨1, .inr ⟨rfl, ends⟩, rfl, ?_, rfl, ?_, fun i low => ?_⟩
      · change 24 * 80 + 0 + 80 * 1 = v.position + 1
        omega
      · refine (moved _ (by simp only [vgaWidth]; omega)).trans (here _ ?_)
        simp only [vgaWidth]
        omega
      · simp only [vgaWidth] at low ⊢
        exact (moved i (by omega)).trans (before _ (by omega))
    · have bottom' : ¬ (v.filled v.position 1 (entry c v.color)).row + 1 = vgaHeight := bottom
      rw [if_neg bottom']
      refine ⟨0, .inl rfl, rfl, ?_, rfl, here _ rfl, fun i low => before i low⟩
      change (v.row + 1) * vgaWidth + 0 + vgaWidth * 0 = v.position + 1
      simp only [vgaWidth] at last col place ⊢
      omega
  · rw [if_neg last]
    refine ⟨0, .inl rfl, rfl, ?_, rfl, here _ rfl, fun i low => before i low⟩
    change v.row * vgaWidth + (v.col + 1) + vgaWidth * 0 = v.position + 1
    omega

/-- A backspace clears the cell before the cursor and goes there. -/
theorem Vga.erased_spec (v : Vga) (positive : 0 < v.position) :
    v.erased.position + 1 = v.position ∧ v.erased.scrolls = v.scrolls ∧ v.erased.color = v.color ∧
      ∀ i, i + 1 < v.position → v.erased.cells i = v.cells i := by
  unfold Vga.erased
  rw [if_neg (Nat.ne_of_gt positive)]
  refine ⟨?_, rfl, rfl, fun i less => if_neg (by omega)⟩
  have whole := Nat.div_add_mod (v.position - 1) vgaWidth
  change (v.position - 1) / vgaWidth * vgaWidth + (v.position - 1) % vgaWidth + 1 = v.position
  rw [Nat.mul_comm]
  omega

end Positions

end Seaweed
