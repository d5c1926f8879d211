import Seaweed.Library.FirstFit

/-! What the blocks in use leave of the arena. With no two free neighbours the blocks in
use decide the whole list, so it does not matter in which order they were given out and
taken back, and each free block is a whole stretch between two blocks in use. -/

namespace Library
namespace FirstFit

variable {h t wanted a p q n d stop : ℕ} {b : Block} {blocks rest after xs ys : List Block}

section Search

/-- The search takes the first block that is free and large enough. -/
theorem acquire_split (found : acquire h t wanted a blocks = some (p, after)) :
    ∃ pre b post, blocks = pre ++ b :: post ∧ b.free = true ∧ wanted ≤ b.size ∧
      (∀ c ∈ pre, c.free = true → c.size < wanted) ∧ p = a + span h pre + h ∧
      after = pre ++ (carve h t wanted b ++ post) := by
  induction blocks generalizing a p after with
  | nil => cases found
  | cons b rest ih =>
    rw [acquire] at found
    split at found
    next fits =>
      cases found
      exact ⟨[], b, rest, rfl, fits.1, fits.2, fun c member => absurd member List.not_mem_nil, rfl, rfl⟩
    next small =>
      obtain ⟨⟨q, tail⟩, inner, same⟩ := Option.map_eq_some_iff.mp found
      cases same
      obtain ⟨pre, c, post, rfl, free, enough, before, place, rfl⟩ := ih inner
      refine ⟨b :: pre, c, post, rfl, free, enough, ?_, ?_, rfl⟩
      · exact List.forall_mem_cons.mpr ⟨fun free => Nat.lt_of_not_le fun enough => small ⟨free, enough⟩, before⟩
      · rw [span, place]
        omega

theorem carve_taken : ∃ size, taken h a (carve h t wanted b) = [(a + h, size)] := by
  unfold carve
  split
  next => exact ⟨b.size, rfl⟩
  next => exact ⟨wanted, rfl⟩

/-- Without the block given out the blocks in use are those from before. -/
theorem acquire_filter (positive : 0 < h) (found : acquire h t wanted a blocks = some (p, after)) :
    ((taken h a after).filter fun x => decide (x.1 ≠ p)) = taken h a blocks := by
  obtain ⟨pre, b, post, rfl, free, _, _, rfl, rfl⟩ := acquire_split found
  obtain ⟨size, cut⟩ := @carve_taken h t wanted (a + span h pre) b
  have left : ∀ x ∈ taken h a pre, decide (x.1 ≠ a + span h pre + h) = true := fun x member => by
    have := (taken_inside member).2
    exact decide_eq_true (by omega)
  have right : ∀ x ∈ taken h (a + span h pre + (h + b.size)) post, decide (x.1 ≠ a + span h pre + h) = true :=
    fun x member => by
      have := (taken_inside member).1
      exact decide_eq_true (by omega)
  have whole : taken h (a + span h pre) (b :: post) = taken h (a + span h pre + (h + b.size)) post := by
    rw [taken, free, if_pos rfl, List.nil_append, Nat.add_assoc (a + span h pre)]
  rw [taken_append, taken_append, taken_append, carve_span, cut, whole, List.filter_append, List.filter_append,
    List.filter_eq_self.mpr left, List.filter_eq_self.mpr right]
  simp

end Search

section Normal

/-- Where the first block in use has its header, or where the arena ends. -/
def edge (h stop : ℕ) (used : List (ℕ × ℕ)) : ℕ := (used.head?.map fun x => x.1 - h).getD stop

theorem edge_cons (separated : Separated (b :: rest)) :
    edge h (a + span h (b :: rest)) (taken h a (b :: rest)) = if b.free then a + h + b.size else a := by
  cases free : b.free with
  | false => simp [taken, edge, free]
  | true =>
    obtain ⟨next, _⟩ := separated_cons.mp separated
    rw [taken, free, if_pos rfl, if_pos rfl, List.nil_append]
    cases rest with
    | nil => simp [taken, edge, span, Nat.add_assoc]
    | cons c tail =>
      have used : c.free = false := Bool.eq_false_iff.mpr fun both => next c rfl ⟨free, both⟩
      simp [taken, edge, used]

/-- The blocks in use decide a list without free neighbours. -/
theorem eq_of_taken (positive : 0 < h) (left : Separated xs) (right : Separated ys) (full : span h xs = span h ys)
    (same : taken h a xs = taken h a ys) : xs = ys := by
  induction xs generalizing a ys with
  | nil =>
    cases ys with
    | nil => rfl
    | cons c ys =>
      simp only [span] at full
      omega
  | cons b xs ih =>
    cases ys with
    | nil =>
      simp only [span] at full
      omega
    | cons c ys =>
      have edges := @edge_cons h a b xs left
      rw [same, full, edge_cons right] at edges
      have flags : b.free = c.free := by
        cases first : b.free <;> cases second : c.free <;> simp [first, second] at edges ⊢ <;> omega
      have sizes : b.size = c.size := by
        cases first : b.free with
        | true =>
          rw [← flags, first, if_pos rfl, if_pos rfl] at edges
          omega
        | false =>
          rw [taken, taken, ← flags, first] at same
          simpa using (List.cons.inj same).1
      have head : b = c := by
        cases b
        cases c
        cases flags
        cases sizes
        rfl
      subst head
      simp only [span] at full
      rw [taken, taken] at same
      rw [ih (separated_cons.mp left).2 (separated_cons.mp right).2 (by omega) (List.append_cancel_left same)]

end Normal

section Gaps

/-- The stretches between blocks in use from `start` up to `stop`, each as its address
and its length. Some have length 0. -/
def gaps (h stop : ℕ) : ℕ → List (ℕ × ℕ) → List (ℕ × ℕ)
  | start, [] => [(start, stop - start)]
  | start, (p, n) :: used => (start, p - h - start) :: gaps h stop (p + n) used

/-- The free blocks, each as its address and its length with the header. -/
def room (h : ℕ) : ℕ → List Block → List (ℕ × ℕ)
  | _, [] => []
  | a, b :: rest => (if b.free then [(a, h + b.size)] else []) ++ room h (a + h + b.size) rest

theorem room_append : room h a (blocks ++ rest) = room h a blocks ++ room h (a + span h blocks) rest := by
  induction blocks generalizing a with
  | nil => simp [room, span]
  | cons b tail ih =>
    rw [List.cons_append, room, room, ih, span, List.append_assoc]
    simp only [Nat.add_assoc]

theorem room_inside {g : ℕ × ℕ} (member : g ∈ room h a blocks) :
    a ≤ g.1 ∧ ∃ c ∈ blocks, c.free = true ∧ g.2 = h + c.size := by
  induction blocks generalizing a with
  | nil => cases member
  | cons b rest ih =>
    rw [room] at member
    rcases List.mem_append.mp member with here | later
    · split at here
      next free =>
        cases List.mem_singleton.mp here
        exact ⟨Nat.le_refl a, b, List.mem_cons_self, free, rfl⟩
      next => cases here
    · obtain ⟨above, c, inner, free, length⟩ := ih later
      exact ⟨by omega, c, List.mem_cons_of_mem b inner, free, length⟩

/-- Here `start` is where the stretch that ends at `a` began, with a free block in it if
it is not empty. -/
private theorem gaps_from (positive : 0 < h) (separated : Separated blocks) {start : ℕ} (below : start ≤ a)
    (behind : start = a ∨ ∀ c ∈ blocks.head?, c.free = false) :
    (gaps h (a + span h blocks) start (taken h a blocks)).filter (fun g => decide (0 < g.2)) =
      (if start = a then [] else [(start, a - start)]) ++ room h a blocks := by
  induction blocks generalizing a start with
  | nil =>
    by_cases same : start = a
    · simp [gaps, taken, span, room, same]
    · have long : 0 < a - start := by omega
      simp [gaps, taken, span, room, same, long]
  | cons b rest ih =>
    obtain ⟨next, later⟩ := separated_cons.mp separated
    have ends : a + span h (b :: rest) = a + h + b.size + span h rest := by
      rw [span]
      omega
    rw [taken, room, ends]
    cases free : b.free with
    | true =>
      have same : start = a := behind.resolve_right fun used => Bool.false_ne_true ((used b rfl).symm.trans free)
      subst same
      have apart : ∀ c ∈ rest.head?, c.free = false := fun c first =>
        Bool.eq_false_iff.mpr fun both => next c first ⟨free, both⟩
      have length : start + h + b.size - start = h + b.size := by omega
      have moved : start ≠ start + h + b.size := by omega
      rw [if_pos rfl, if_pos rfl, if_pos rfl, List.nil_append, List.nil_append,
        ih later (by omega) (.inr apart), if_neg moved, length]
    | false =>
      rw [if_neg Bool.false_ne_true, if_neg Bool.false_ne_true, List.nil_append, List.singleton_append, gaps,
        List.filter_cons, ih later (Nat.le_refl _) (.inl rfl), if_pos rfl, List.nil_append, Nat.add_sub_cancel]
      by_cases same : start = a
      · simp [same]
      · have long : 0 < a - start := by omega
        simp [same, long]

theorem gaps_eq (positive : 0 < h) (separated : Separated blocks) :
    (gaps h (a + span h blocks) a (taken h a blocks)).filter (fun g => decide (0 < g.2)) = room h a blocks := by
  rw [gaps_from positive separated (Nat.le_refl a) (.inl rfl), if_pos rfl, List.nil_append]

theorem mem_gaps (positive : 0 < h) (separated : Separated blocks) {g : ℕ × ℕ} (long : 0 < g.2) :
    g ∈ gaps h (a + span h blocks) a (taken h a blocks) ↔ g ∈ room h a blocks := by
  rw [← gaps_eq positive separated, List.mem_filter, decide_eq_true_eq]
  exact ⟨fun member => ⟨member, long⟩, And.left⟩

theorem mem_room (member : b ∈ blocks) (free : b.free = true) : ∃ g ∈ room h a blocks, g.2 = h + b.size := by
  obtain ⟨pre, post, rfl⟩ := List.append_of_mem member
  refine ⟨(a + span h pre, h + b.size), ?_, rfl⟩
  rw [room_append, room, free, if_pos rfl]
  exact List.mem_append_right _ List.mem_cons_self

theorem acquire_none_room : acquire h t wanted a blocks = none ↔ ∀ g ∈ room h a blocks, g.2 < h + wanted := by
  rw [acquire_none]
  constructor
  · intro small g member
    obtain ⟨_, c, inner, free, length⟩ := room_inside member
    have := small c inner free
    omega
  · intro small b member free
    obtain ⟨g, inner, length⟩ := @mem_room h a b blocks member free
    have := small g inner
    omega

end Gaps

section Divisors

/-- Every size is a multiple of `d`. -/
def Divided (d : ℕ) (blocks : List Block) : Prop := ∀ b ∈ blocks, d ∣ b.size

theorem Divided.acquire (divided : Divided d blocks) (header : d ∣ h) (asked : d ∣ wanted)
    (found : FirstFit.acquire h t wanted a blocks = some (p, after)) : Divided d after := by
  obtain ⟨pre, b, post, rfl, _, _, _, _, rfl⟩ := acquire_split found
  obtain ⟨before, here⟩ := List.forall_mem_append.mp divided
  obtain ⟨this, behind⟩ := List.forall_mem_cons.mp here
  refine List.forall_mem_append.mpr ⟨before, List.forall_mem_append.mpr ⟨?_, behind⟩⟩
  unfold carve
  split
  next => exact List.forall_mem_singleton.mpr this
  next =>
    refine List.forall_mem_cons.mpr ⟨asked, List.forall_mem_singleton.mpr ?_⟩
    exact Nat.dvd_sub (Nat.dvd_sub this asked) header

theorem Divided.release (divided : Divided d blocks) : Divided d (FirstFit.release h p a blocks) := by
  induction blocks generalizing a with
  | nil => exact divided
  | cons b rest ih =>
    obtain ⟨here, behind⟩ := List.forall_mem_cons.mp divided
    rw [FirstFit.release]
    split
    next => exact List.forall_mem_cons.mpr ⟨here, behind⟩
    next => exact List.forall_mem_cons.mpr ⟨here, ih behind⟩

private theorem Divided.mergeFrom (header : d ∣ h) (here : d ∣ b.size) (divided : Divided d rest) :
    Divided d (FirstFit.mergeFrom h b rest) := by
  induction rest generalizing b with
  | nil => exact List.forall_mem_singleton.mpr here
  | cons c rest ih =>
    obtain ⟨next, behind⟩ := List.forall_mem_cons.mp divided
    rw [FirstFit.mergeFrom]
    split
    next => exact ih (Nat.dvd_add (Nat.dvd_add here header) next) behind
    next => exact List.forall_mem_cons.mpr ⟨here, ih next behind⟩

theorem Divided.merge (header : d ∣ h) (divided : Divided d blocks) : Divided d (FirstFit.merge h blocks) := by
  cases blocks with
  | nil => exact divided
  | cons b rest =>
    obtain ⟨here, behind⟩ := List.forall_mem_cons.mp divided
    exact Divided.mergeFrom header here behind

end Divisors

namespace Layout

variable {total : ℕ} {l r : Layout h total}

theorem eq_of_taken (positive : 0 < h) (same : taken h a l.blocks = taken h a r.blocks) : l = r :=
  Layout.ext (FirstFit.eq_of_taken positive l.separated r.separated (l.full.trans r.full.symm) same)

theorem taken_release (positive : 0 < h) :
    taken h a (l.release p a).blocks = (taken h a l.blocks).filter fun x => decide (x.1 ≠ p) :=
  merge_taken.trans (release_taken positive)

theorem release_acquire (positive : 0 < h) (found : l.acquire t wanted a = some (p, r)) : r.release p a = l := by
  apply eq_of_taken positive
  rw [taken_release positive]
  exact acquire_filter positive (acquire_eq_some.mp found)

end Layout

end FirstFit
end Library
