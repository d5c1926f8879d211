import Seaweed.Proofs.HeapSpace

/-! Where the pointers of `kmalloc` fall modulo 8. Every size is rounded to 8 and a header
takes 12 bytes, so a pointer is 4 off after an even number of sizes that are multiples of
8, the first one included. -/

namespace Seaweed
open Library FirstFit

variable {a : Arena} {s after : Session} {t : Ledger} {h : Heap} {l : HeapLayout} {p n x : ℕ} {size : UInt32}
  {blocks rest : List Block} {call : HeapCall}

/-- `ALIGNMENT` is what a pointer should be a multiple of. -/
def ReturnsAligned (h : Heap) (size : UInt32) : Prop :=
  ∀ p after, kmalloc h size = some (p, after) → p ≠ 0 → p % heapAlignment.toNat = 0

/-- The headers before the first free one that is large enough. -/
def headersAhead (wanted : ℕ) (headers : List Header) : List Header :=
  headers.takeWhile fun b => !(b.free && decide (wanted ≤ b.size))

def evenSizes (headers : List Header) : ℕ := headers.countP fun b => b.size % 8 = 0

/-- The request is refused, or an odd number of sizes ahead are multiples of 8. -/
def PlacedAligned (h : Heap) (size : UInt32) : Prop :=
  ∃ headers, h.headers = some headers ∧
    (size = 0 ∨ (∀ b ∈ headers, b.free = true → b.size < (alignUp size).toNat) ∨
      evenSizes (headersAhead (alignUp size).toNat headers) % 2 = 1)

section Sizes

theorem fresh_divided : Divided 4 freshLayout.blocks := List.forall_mem_singleton.mpr (by decide)

theorem alignUp_divided (size : UInt32) : 4 ∣ (alignUp size).toNat := by
  rw [alignUp_toNat]
  omega

theorem Ledger.kmalloc_divided (divided : Divided 4 t.layout.blocks) : Divided 4 (t.kmalloc a size).layout.blocks := by
  unfold Ledger.kmalloc
  split
  next => exact divided
  next =>
    split
    next => exact divided
    next found => exact divided.acquire (by decide) (alignUp_divided size) (Layout.acquire_eq_some.mp found)

/-- No call brings in a size that is not a multiple of 4. -/
theorem Ledger.call_divided (divided : Divided 4 t.layout.blocks) : Divided 4 (t.call a call).layout.blocks := by
  cases call with
  | kmalloc size => exact Ledger.kmalloc_divided divided
  | kcalloc count size =>
    rw [Ledger.call]
    split
    next => exact divided
    next => exact Ledger.kmalloc_divided divided
  | kfree p =>
    simp only [Ledger.call]
    split
    next => exact divided
    next => exact divided.release.merge (by decide)
  | store p k value => exact divided

theorem Ledger.calls_divided {calls : List HeapCall} (divided : Divided 4 t.layout.blocks) :
    Divided 4 (calls.foldl (Ledger.call a) t).layout.blocks := by
  induction calls generalizing t with
  | nil => exact divided
  | cons call rest ih => exact ih (Ledger.call_divided divided)

/-- A header and a size that is a multiple of 8 move the next block by 4 modulo 8, and a
header and any other size by 0. -/
theorem span_mod (divided : Divided 4 blocks) : span 12 blocks % 8 = 4 * (evenSizes (headersOf x blocks) % 2) := by
  induction blocks generalizing x with
  | nil => rfl
  | cons b rest ih =>
    obtain ⟨here, later⟩ := List.forall_mem_cons.mp divided
    have behind := @ih (x + 12 + b.size) later
    rw [evenSizes] at behind
    rw [span, headersOf, evenSizes, List.countP_cons]
    simp only [decide_eq_true_eq]
    split <;> omega

end Sizes

section Placing

theorem headersAhead_eq {wanted : ℕ} {b : Block} {pre post : List Block} (free : b.free = true) (enough : wanted ≤ b.size)
    (before : ∀ c ∈ pre, c.free = true → c.size < wanted) :
    headersAhead wanted (headersOf x (pre ++ b :: post)) = headersOf x pre := by
  induction pre generalizing x with
  | nil => simp [headersOf, headersAhead, free, enough]
  | cons c pre ih =>
    obtain ⟨here, later⟩ := List.forall_mem_cons.mp before
    have passed : (!(c.free && decide (wanted ≤ c.size))) = true := by
      cases flag : c.free with
      | false => rfl
      | true => simpa using here flag
    have rest := @ih (x + 12 + c.size) later
    rw [List.cons_append, headersOf, headersOf, ← rest]
    exact List.takeWhile_cons_of_pos passed

theorem Holds.aligned_iff (holds : Holds a h l) (based : a.base % 8 = 0) (divided : Divided 4 l.blocks) (size : UInt32) :
    ReturnsAligned h size ↔ PlacedAligned h size := by
  have listed := holds.headers_eq
  by_cases zero : size = 0
  · refine iff_of_true (fun p after done nonnull => ?_) ⟨_, listed, .inl zero⟩
    rw [kmalloc, if_pos zero] at done
    cases done
    exact absurd rfl nonnull
  have sizes := @headersOf_forall a.base l.blocks fun n free => free = true → n < (alignUp size).toNat
  cases found : l.acquire 8 (alignUp size).toNat a.base with
  | none =>
    have refused := acquire_none.mp (Layout.acquire_eq_none.mp found)
    refine iff_of_true (fun p after done nonnull => ?_) ⟨_, listed, .inr (.inl (sizes.mpr refused))⟩
    cases done.symm.trans (holds.kmalloc_none zero found)
    exact absurd rfl nonnull
  | some result =>
    obtain ⟨p, layout⟩ := result
    obtain ⟨given, done, _⟩ := holds.kmalloc_some zero found
    obtain ⟨pre, b, post, whole, free, enough, before, place, _⟩ := acquire_split (Layout.acquire_eq_some.mp found)
    have ahead := @headersAhead_eq a.base _ b pre post free enough before
    rw [← whole] at ahead
    have offset := @span_mod a.base pre fun c member => divided c (whole ▸ List.mem_append_left _ member)
    have granted : ¬ ∀ b ∈ headersOf a.base l.blocks, b.free = true → b.size < (alignUp size).toNat := fun refused =>
      absurd (sizes.mp refused b (whole ▸ List.mem_append_right _ List.mem_cons_self) free) (Nat.not_lt.mpr enough)
    have aligned : p % 8 = 0 ↔ evenSizes (headersOf a.base pre) % 2 = 1 := by omega
    constructor
    · intro promised
      refine ⟨_, listed, .inr (.inr ?_)⟩
      rw [ahead]
      exact aligned.mp (promised p given done (by omega))
    · rintro ⟨headers, listed', condition⟩ q after done' _
      cases listed.symm.trans listed'
      cases done.symm.trans done'
      rw [ahead] at condition
      exact aligned.mpr ((condition.resolve_left zero).resolve_left granted)

/-- The size a call asks of `kmalloc`. -/
def HeapCall.asks : HeapCall → Option UInt32
  | .kmalloc size => some size
  | .kcalloc count size => some (count * size)
  | _ => none

theorem kcalloc_asks {count : UInt32} {after : Heap} (done : kcalloc h count size = some (p, after)) (nonnull : p ≠ 0) :
    ∃ given, kmalloc h (count * size) = some (p, given) := by
  simp only [kcalloc] at done
  split at done
  next =>
    cases done
    exact absurd rfl nonnull
  next =>
    obtain ⟨⟨q, given⟩, asked, same⟩ := Option.bind_eq_some_iff.mp done
    dsimp only at same
    split at same <;> cases same <;> exact ⟨_, asked⟩

theorem Keeps.aligned_step (keeps : Keeps a s t) (based : a.base % 8 = 0) (divided : Divided 4 t.layout.blocks)
    (placed : ∀ size ∈ call.asks, PlacedAligned s.heap size) (ran : call.run s = some after)
    (aligned : ∀ g ∈ s.live, g.pointer % 8 = 0) : ∀ g ∈ after.live, g.pointer % 8 = 0 := by
  have returns : ∀ size ∈ call.asks, ReturnsAligned s.heap size := fun size asked =>
    (keeps.holds.aligned_iff based divided size).mpr (placed size asked)
  cases call with
  | kmalloc size =>
    obtain ⟨⟨p, h⟩, done, same⟩ := Option.bind_eq_some_iff.mp ran
    cases same
    dsimp only
    split
    next => exact aligned
    next nonnull => exact List.forall_mem_cons.mpr ⟨returns size rfl p h done nonnull, aligned⟩
  | kcalloc count size =>
    obtain ⟨⟨p, h⟩, done, same⟩ := Option.bind_eq_some_iff.mp ran
    cases same
    dsimp only
    split
    next => exact aligned
    next nonnull =>
      obtain ⟨given, asked⟩ := kcalloc_asks done nonnull
      exact List.forall_mem_cons.mpr ⟨returns _ rfl p given asked nonnull, aligned⟩
  | kfree p =>
    obtain ⟨h, _, same⟩ := Option.bind_eq_some_iff.mp ran
    cases same
    exact fun g member => aligned g (List.mem_filter.mp member).1
  | store p k value =>
    cases ran
    intro g changed
    obtain ⟨f, member, rfl⟩ := List.mem_map.mp changed
    have kept := aligned f member
    split <;> exact kept

theorem Keeps.aligned_run (keeps : Keeps a s t) (based : a.base % 8 = 0) (divided : Divided 4 t.layout.blocks)
    {calls : List HeapCall} (run : HeapRun s calls after)
    (placed : ∀ prior call rest middle, calls = prior ++ call :: rest → HeapRun s prior middle →
      ∀ size ∈ call.asks, PlacedAligned middle.heap size)
    (aligned : ∀ g ∈ s.live, g.pointer % 8 = 0) : ∀ g ∈ after.live, g.pointer % 8 = 0 := by
  induction run generalizing t with
  | done => exact aligned
  | @call s middle after call rest legal ran _ ih =>
    obtain ⟨middle', ran', keeps'⟩ := keeps.step legal
    cases ran.symm.trans ran'
    have here := keeps.aligned_step based divided (placed [] call rest s rfl .done) ran aligned
    refine ih keeps' (Ledger.call_divided divided) (fun prior next later last split run => ?_) here
    exact placed (call :: prior) next later last (by rw [split]; rfl) (.call legal ran run)

/-- The header takes 12 bytes, so the pointers of `kmalloc` are multiples of 8 only where
an odd number of sizes ahead are. In a run that asks only there all live pointers are. -/
theorem kmalloc_aligned_iff (a : Arena) (m : Bytes) (based : a.base % 8 = 0) {calls : List HeapCall} {s : Session}
    (run : HeapRun (Session.start a m) calls s) :
    (∀ size, ReturnsAligned s.heap size ↔ PlacedAligned s.heap size) ∧
      ((∀ prior call rest middle, calls = prior ++ call :: rest → HeapRun (Session.start a m) prior middle →
        ∀ size ∈ call.asks, PlacedAligned middle.heap size) → ∀ g ∈ s.live, g.pointer % 8 = 0) := by
  have keeps := (start_keeps a m).run run
  refine ⟨keeps.holds.aligned_iff based (Ledger.calls_divided fresh_divided), fun placed => ?_⟩
  exact (start_keeps a m).aligned_run based fresh_divided run placed fun g member => absurd member List.not_mem_nil

/-- The block after one of 104 bytes is aligned. -/
theorem kmalloc_aligned_of_second : ∃ s, HeapRun (Session.start sampleArena fun _ => 0) [.kmalloc 100] s ∧
    ReturnsAligned s.heap 5 := by
  obtain ⟨s, ran, keeps⟩ := (start_keeps sampleArena fun _ => 0).kmalloc_step 100
  have run : HeapRun (Session.start sampleArena fun _ => 0) [.kmalloc 100] s := .call trivial ran .done
  have placed : PlacedAligned s.heap 5 := ⟨_, keeps.holds.headers_eq, by decide⟩
  exact ⟨s, run, ((kmalloc_aligned_iff sampleArena (fun _ => 0) (by decide) run).1 5).mpr placed⟩

/-- The first block of a fresh heap starts 12 bytes into the arena. -/
theorem first_pointer_misaligned : ¬ ∀ (a : Arena) (m : Bytes) (calls : List HeapCall) (s : Session),
    a.base % 8 = 0 → HeapRun (Session.start a m) calls s → ∀ size, ReturnsAligned s.heap size := by
  intro all
  have promised := all sampleArena (fun _ => 0) [] _ (by decide) .done 1
  have holds := heapInit_holds sampleArena fun _ => 0
  obtain ⟨headers, listed, condition⟩ := (holds.aligned_iff (by decide) fresh_divided 1).mp promised
  cases listed.symm.trans holds.headers_eq
  revert condition
  decide

end Placing

end Seaweed
