import Mathlib

/-! First-fit allocation over a list of blocks. The blocks lie side by side from a base
address on, each behind a header of `h` bytes, so the list alone says where every block
is. Nothing here depends on how the list is stored. -/

namespace Library

structure Block where
  size : ℕ
  free : Bool
deriving DecidableEq

namespace FirstFit

def span (h : ℕ) : List Block → ℕ
  | [] => 0
  | b :: rest => h + b.size + span h rest

/-- The address and the size of each block that is not free. -/
def taken (h : ℕ) : ℕ → List Block → List (ℕ × ℕ)
  | _, [] => []
  | a, b :: rest => (if b.free then [] else [(a + h, b.size)]) ++ taken h (a + h + b.size) rest

def Separated (blocks : List Block) : Prop := blocks.IsChain fun b c => ¬ (b.free = true ∧ c.free = true)

/-- A block given out for `wanted` bytes: cut in two when the leftover has room for a
header and `t` bytes. -/
def carve (h t wanted : ℕ) (b : Block) : List Block :=
  if b.size < wanted + h + t then [⟨b.size, false⟩]
  else [⟨wanted, false⟩, ⟨b.size - wanted - h, true⟩]

def acquire (h t wanted : ℕ) : ℕ → List Block → Option (ℕ × List Block)
  | _, [] => none
  | a, b :: rest =>
    if b.free = true ∧ wanted ≤ b.size then some (a + h, carve h t wanted b ++ rest)
    else (acquire h t wanted (a + h + b.size) rest).map fun (p, after) => (p, b :: after)

def release (h p : ℕ) : ℕ → List Block → List Block
  | _, [] => []
  | a, b :: rest => if p = a + h then ⟨b.size, true⟩ :: rest else b :: release h p (a + h + b.size) rest

/-- Joins every free block with the free blocks right after it. -/
def mergeFrom (h : ℕ) : Block → List Block → List Block
  | b, [] => [b]
  | b, c :: rest =>
    if b.free = true ∧ c.free = true then mergeFrom h ⟨b.size + h + c.size, true⟩ rest
    else b :: mergeFrom h c rest

def merge (h : ℕ) : List Block → List Block
  | [] => []
  | b :: rest => mergeFrom h b rest

variable {h t wanted a p n : ℕ} {b c : Block} {blocks rest after : List Block}

section Spans

theorem span_append : span h (blocks ++ rest) = span h blocks + span h rest := by
  induction blocks with
  | nil => simp [span]
  | cons b tail ih => simp [span, ih, Nat.add_assoc]

theorem carve_span : span h (carve h t wanted b) = h + b.size := by
  unfold carve
  split
  next => simp [span]
  next => simp only [span]; omega

theorem acquire_span (found : acquire h t wanted a blocks = some (p, after)) : span h after = span h blocks := by
  induction blocks generalizing a p after with
  | nil => cases found
  | cons b rest ih =>
    rw [acquire] at found
    split at found
    next =>
      cases found
      rw [span_append, carve_span, span]
    next =>
      obtain ⟨⟨q, tail⟩, inner, same⟩ := Option.map_eq_some_iff.mp found
      cases same
      rw [span, span, ih inner]

theorem release_span : span h (release h p a blocks) = span h blocks := by
  induction blocks generalizing a with
  | nil => rfl
  | cons b rest ih =>
    rw [release]
    split
    next => rfl
    next => rw [span, span, ih]

theorem mergeFrom_span (b : Block) (rest : List Block) : span h (mergeFrom h b rest) = h + b.size + span h rest := by
  induction rest generalizing b with
  | nil => rfl
  | cons c rest ih =>
    rw [mergeFrom]
    split
    next =>
      rw [ih]
      simp only [span]
      omega
    next => rw [span, ih, span]

theorem merge_span : span h (merge h blocks) = span h blocks := by
  cases blocks with
  | nil => rfl
  | cons b rest => exact mergeFrom_span b rest

theorem length_le_span (h : ℕ) (blocks : List Block) : h * blocks.length ≤ span h blocks := by
  induction blocks with
  | nil => simp
  | cons b rest ih =>
    simp only [List.length_cons, span, Nat.mul_succ]
    omega

end Spans

section Separation

theorem separated_cons : Separated (b :: rest) ↔
    (∀ c ∈ rest.head?, ¬ (b.free = true ∧ c.free = true)) ∧ Separated rest := List.isChain_cons

/-- Nothing free comes next to a free block, so the two halves keep apart from it. -/
theorem carve_append (separated : Separated (b :: rest)) (free : b.free = true) :
    Separated (carve h t wanted b ++ rest) := by
  obtain ⟨next, later⟩ := separated_cons.mp separated
  unfold carve
  split
  next => exact separated_cons.mpr ⟨fun c _ both => Bool.false_ne_true both.1, later⟩
  next =>
    refine separated_cons.mpr ⟨fun c _ both => Bool.false_ne_true both.1, separated_cons.mpr ⟨?_, later⟩⟩
    exact fun c first both => next c first ⟨free, both.2⟩

private theorem acquire_head (found : acquire h t wanted a blocks = some (p, after)) :
    ∀ c ∈ after.head?, c.free = true → ∃ d ∈ blocks.head?, d.free = true := by
  cases blocks with
  | nil => cases found
  | cons b rest =>
    rw [acquire] at found
    split at found
    next fits => exact fun c _ _ => ⟨b, rfl, fits.1⟩
    next =>
      obtain ⟨_, _, same⟩ := Option.map_eq_some_iff.mp found
      cases same
      exact fun c first free => ⟨c, first, free⟩

theorem acquire_separated (separated : Separated blocks) (found : acquire h t wanted a blocks = some (p, after)) :
    Separated after := by
  induction blocks generalizing a p after with
  | nil => cases found
  | cons b rest ih =>
    obtain ⟨next, later⟩ := separated_cons.mp separated
    rw [acquire] at found
    split at found
    next fits =>
      cases found
      exact carve_append separated fits.1
    next =>
      obtain ⟨⟨q, tail⟩, inner, same⟩ := Option.map_eq_some_iff.mp found
      cases same
      refine separated_cons.mpr ⟨fun c first both => ?_, ih later inner⟩
      obtain ⟨d, head, free⟩ := acquire_head inner c first both.2
      exact next d head ⟨both.1, free⟩

private theorem mergeFrom_head (b : Block) (rest : List Block) : ∀ c ∈ (mergeFrom h b rest).head?, c.free = b.free := by
  induction rest generalizing b with
  | nil =>
    intro c first
    cases first
    rfl
  | cons d rest ih =>
    rw [mergeFrom]
    split
    next both =>
      intro c first
      rw [ih _ c first, both.1]
    next =>
      intro c first
      cases first
      rfl

theorem mergeFrom_separated (b : Block) (rest : List Block) : Separated (mergeFrom h b rest) := by
  induction rest generalizing b with
  | nil => exact List.isChain_singleton b
  | cons c rest ih =>
    rw [mergeFrom]
    split
    next => exact ih _
    next apart =>
      refine separated_cons.mpr ⟨fun d first both => apart ⟨both.1, ?_⟩, ih c⟩
      rw [← mergeFrom_head c rest d first]
      exact both.2

theorem merge_separated : Separated (merge h blocks) := by
  cases blocks with
  | nil => exact List.isChain_nil
  | cons b rest => exact mergeFrom_separated b rest

end Separation

section Takings

theorem taken_append : taken h a (blocks ++ rest) = taken h a blocks ++ taken h (a + span h blocks) rest := by
  induction blocks generalizing a with
  | nil => simp [taken, span]
  | cons b tail ih =>
    rw [List.cons_append, taken, taken, ih, span, List.append_assoc]
    simp only [Nat.add_assoc]

theorem taken_inside (member : (p, n) ∈ taken h a blocks) : a + h ≤ p ∧ p + n ≤ a + span h blocks := by
  induction blocks generalizing a with
  | nil => cases member
  | cons b rest ih =>
    rw [taken] at member
    rw [span]
    rcases List.mem_append.mp member with here | later
    · split at here
      next => cases here
      next =>
        cases List.mem_singleton.mp here
        omega
    · have := ih later
      omega

/-- Blocks in use lie apart, with a header between them. -/
theorem taken_pairwise : (taken h a blocks).Pairwise fun x y => x.1 + x.2 + h ≤ y.1 := by
  induction blocks generalizing a with
  | nil => exact List.Pairwise.nil
  | cons b rest ih =>
    rw [taken, List.pairwise_append]
    refine ⟨?_, ih, ?_⟩
    · split
      next => exact List.Pairwise.nil
      next => exact List.pairwise_singleton _ _
    · intro x here y later
      split at here
      next => cases here
      next =>
        cases List.mem_singleton.mp here
        exact (taken_inside later).1

/-- The block given out is new among those in use, and large enough. -/
theorem acquire_taken (found : acquire h t wanted a blocks = some (p, after)) :
    ∃ size, wanted ≤ size ∧ ∀ x, x ∈ taken h a after ↔ x = (p, size) ∨ x ∈ taken h a blocks := by
  induction blocks generalizing a p after with
  | nil => cases found
  | cons b rest ih =>
    rw [acquire] at found
    split at found
    next fits =>
      cases found
      rw [taken_append, carve_span]
      unfold carve
      split
      next => exact ⟨b.size, fits.2, fun x => by simp [taken, fits.1, Nat.add_assoc]⟩
      next => exact ⟨wanted, Nat.le_refl wanted, fun x => by simp [taken, fits.1, Nat.add_assoc]⟩
    next =>
      obtain ⟨⟨q, tail⟩, inner, same⟩ := Option.map_eq_some_iff.mp found
      cases same
      obtain ⟨size, enough, only⟩ := ih inner
      refine ⟨size, enough, fun x => ?_⟩
      rw [taken, taken, List.mem_append, List.mem_append, only]
      exact or_left_comm

theorem acquire_fresh (positive : 0 < h) (found : acquire h t wanted a blocks = some (p, after)) :
    (p, n) ∉ taken h a blocks := by
  induction blocks generalizing a p after with
  | nil => cases found
  | cons b rest ih =>
    rw [taken, List.mem_append, not_or]
    rw [acquire] at found
    split at found
    next fits =>
      cases found
      refine ⟨by simp [fits.1], fun later => ?_⟩
      have := (taken_inside later).1
      omega
    next =>
      obtain ⟨⟨q, tail⟩, inner, same⟩ := Option.map_eq_some_iff.mp found
      cases same
      refine ⟨fun here => ?_, ih inner⟩
      obtain ⟨size, _, only⟩ := acquire_taken inner
      have := (taken_inside ((only _).mpr (.inl rfl))).1
      split at here
      next => cases here
      next =>
        cases List.mem_singleton.mp here
        omega

theorem taken_disjoint {x y : ℕ × ℕ} (first : x ∈ taken h a blocks) (second : y ∈ taken h a blocks)
    (differ : x.1 ≠ y.1) : x.1 + x.2 ≤ y.1 ∨ y.1 + y.2 ≤ x.1 := by
  have : Std.Symm fun x y : ℕ × ℕ => x.1 + x.2 ≤ y.1 ∨ y.1 + y.2 ≤ x.1 := ⟨fun _ _ => Or.symm⟩
  have apart : (taken h a blocks).Pairwise fun x y => x.1 + x.2 ≤ y.1 ∨ y.1 + y.2 ≤ x.1 :=
    taken_pairwise.imp fun below => .inl (by omega)
  exact apart.forall first second fun same => differ (congrArg Prod.fst same)

/-- The block at `p` goes, and the others in use stay. -/
theorem release_taken (positive : 0 < h) :
    taken h a (release h p a blocks) = (taken h a blocks).filter fun x => decide (x.1 ≠ p) := by
  induction blocks generalizing a with
  | nil => rfl
  | cons b rest ih =>
    rw [release]
    split
    next here =>
      have kept : ∀ x ∈ taken h (a + h + b.size) rest, decide (x.1 ≠ p) = true := by
        intro x later
        have := (taken_inside later).1
        exact decide_eq_true (by omega)
      rw [taken, taken, List.filter_append, List.filter_eq_self.mpr kept]
      cases b.free <;> simp [here]
    next other =>
      rw [taken, taken, List.filter_append, ih]
      cases b.free <;> simp [Ne.symm other]

theorem mergeFrom_taken (b : Block) (rest : List Block) : taken h a (mergeFrom h b rest) = taken h a (b :: rest) := by
  induction rest generalizing a b with
  | nil => rfl
  | cons c rest ih =>
    rw [mergeFrom]
    split
    next both =>
      rw [ih]
      simp only [taken, both.1, both.2, if_true, List.nil_append]
      congr 1
      omega
    next =>
      rw [taken, ih]
      rfl

theorem merge_taken : taken h a (merge h blocks) = taken h a blocks := by
  cases blocks with
  | nil => rfl
  | cons b rest => exact mergeFrom_taken b rest

theorem acquire_none : acquire h t wanted a blocks = none ↔ ∀ b ∈ blocks, b.free = true → b.size < wanted := by
  induction blocks generalizing a with
  | nil => simp [acquire]
  | cons b rest ih =>
    rw [acquire, List.forall_mem_cons, ← @ih (a + h + b.size)]
    split
    next fits => simp [fits.1, Nat.not_lt.mpr fits.2]
    next small =>
      rw [Option.map_eq_none_iff]
      exact ⟨fun none => ⟨fun free => Nat.lt_of_not_le fun enough => small ⟨free, enough⟩, none⟩, fun both => both.2⟩

end Takings

/-- Blocks that fill `total` bytes, with no two free neighbours. -/
@[ext]
structure Layout (h total : ℕ) where
  blocks : List Block
  full : span h blocks = total
  separated : Separated blocks

namespace Layout

variable {total : ℕ} (l : Layout h total)

def acquire (t wanted a : ℕ) : Option (ℕ × Layout h total) :=
  match found : FirstFit.acquire h t wanted a l.blocks with
  | none => none
  | some (p, after) => some (p, ⟨after, (acquire_span found).trans l.full, acquire_separated l.separated found⟩)

def release (p a : ℕ) : Layout h total where
  blocks := merge h (FirstFit.release h p a l.blocks)
  full := merge_span.trans (release_span.trans l.full)
  separated := merge_separated

variable {l} {after : Layout h total}

theorem acquire_eq_none : l.acquire t wanted a = none ↔ FirstFit.acquire h t wanted a l.blocks = none := by
  unfold acquire
  split
  next none => simp [none]
  next found => simp [found]

theorem acquire_eq_some :
    l.acquire t wanted a = some (p, after) ↔ FirstFit.acquire h t wanted a l.blocks = some (p, after.blocks) := by
  unfold acquire
  split
  next none => simp [none]
  next q blocks found => simp [found, Layout.ext_iff]

end Layout

end FirstFit
end Library
