import Seaweed.Library.Stretches
import Seaweed.Proofs.HeapSafety

/-! Which room `kmalloc` finds and where: every free block is a whole stretch between
blocks in use, so a free gives back what was there, in whatever order blocks are freed. -/

namespace Seaweed
open Library FirstFit

variable {a : Arena} {s after : Session} {t : Ledger} {h : Heap} {l : HeapLayout} {p n x : ℕ} {size : UInt32}
  {blocks rest : List Block}

section Freeing

theorem freshLayout_taken : taken 12 x freshLayout.blocks = [] := rfl

/-- What was given out and taken back again leaves the layout as it was, and the bytes of
the other blocks in use too. -/
theorem Holds.undo (holds : Holds a h l) {given : Heap} (done : kmalloc h size = some (p, given)) (nonnull : p ≠ 0) :
    ∃ freed, kfree given p = some freed ∧ Holds a freed l ∧ (∀ n, (p, n) ∉ taken 12 a.base l.blocks) ∧
      ∀ q n, (q, n) ∈ taken 12 a.base l.blocks → ∀ x, q ≤ x → x < q + n →
        given.mem x = h.mem x ∧ freed.mem x = h.mem x := by
  have nonzero : size ≠ 0 := by
    intro zero
    rw [kmalloc, if_pos zero] at done
    cases done
    exact nonnull rfl
  cases found : l.acquire 8 (alignUp size).toNat a.base with
  | none =>
    cases done.symm.trans (holds.kmalloc_none nonzero found)
    exact absurd rfl nonnull
  | some result =>
    obtain ⟨q, layout⟩ := result
    obtain ⟨given', done', holds', frame⟩ := holds.kmalloc_some nonzero found
    cases done.symm.trans done'
    have given := Layout.acquire_eq_some.mp found
    obtain ⟨block, _, only⟩ := acquire_taken given
    obtain ⟨freed, back, holds'', frame'⟩ := holds'.kfree_some ((only (p, block)).mpr (.inl rfl))
    rw [Layout.release_acquire (by decide) found] at holds''
    refine ⟨freed, back, holds'', fun n => acquire_fresh (by decide) given, fun q n member x low high => ?_⟩
    have clear : ¬ InHeader a.base layout.blocks x := InHeader.apart ((only _).mpr (.inr member)) low high
    exact ⟨frame x clear, (frame' x clear).trans (frame x clear)⟩

/-- The blocks in use outside `ps` are what is left when `ps` has been freed. -/
theorem taken_frees (t : Ledger) {ps : List ℕ} (nonnull : ∀ p ∈ ps, p ≠ 0) :
    taken 12 a.base ((ps.map HeapCall.kfree).foldl (Ledger.call a) t).layout.blocks =
      (taken 12 a.base t.layout.blocks).filter fun x => decide (x.1 ∉ ps) := by
  induction ps generalizing t with
  | nil => simp
  | cons p ps ih =>
    obtain ⟨here, later⟩ := List.forall_mem_cons.mp nonnull
    rw [List.map_cons, List.foldl_cons, ih _ later, Ledger.call, if_neg here, Layout.taken_release (by decide),
      List.filter_filter]
    apply List.filter_congr
    intro x _
    simp [Bool.and_comm]

theorem frees_perm (t : Ledger) {ps qs : List ℕ} (nonnull : ∀ p ∈ ps, p ≠ 0) (order : qs.Perm ps) :
    ((qs.map HeapCall.kfree).foldl (Ledger.call a) t).layout = ((ps.map HeapCall.kfree).foldl (Ledger.call a) t).layout := by
  apply Layout.eq_of_taken (a := a.base) (by decide)
  rw [taken_frees t nonnull, taken_frees t fun p member => nonnull p (order.mem_iff.mp member)]
  exact List.filter_congr fun x _ => decide_eq_decide.mpr (not_congr order.mem_iff)

theorem Keeps.frees_all (keeps : Keeps a s t) {ps : List ℕ} (nonnull : ∀ p ∈ ps, p ≠ 0)
    (every : ∀ g ∈ s.live, g.pointer ∈ ps) : ((ps.map HeapCall.kfree).foldl (Ledger.call a) t).layout = freshLayout := by
  apply Layout.eq_of_taken (a := a.base) (by decide)
  rw [taken_frees t nonnull, freshLayout_taken, List.filter_eq_nil_iff]
  rintro ⟨p, n⟩ member
  obtain ⟨g, here, rfl⟩ := keeps.live_iff.mpr ((keeps.owned p).mpr ⟨n, member⟩)
  simpa using every g here

theorem Keeps.frees (keeps : Keeps a s t) {ps : List ℕ} (live : ∀ p ∈ ps, ∃ g ∈ s.live, g.pointer = p) (once : ps.Nodup) :
    ∃ after, HeapRun s (ps.map HeapCall.kfree) after ∧ Keeps a after ((ps.map HeapCall.kfree).foldl (Ledger.call a) t) := by
  induction ps generalizing s t with
  | nil => exact ⟨s, .done, keeps⟩
  | cons p ps ih =>
    obtain ⟨here, later⟩ := List.forall_mem_cons.mp live
    obtain ⟨fresh, once⟩ := List.nodup_cons.mp once
    have legal : (HeapCall.kfree p).Legal s := .inr here
    obtain ⟨middle, ran, keeps'⟩ := keeps.kfree_step legal
    have left : ∀ q ∈ ps, ∃ g ∈ middle.live, g.pointer = q := by
      intro q member
      obtain ⟨n, old⟩ := keeps.live_iff.mp (later q member)
      have other : q ≠ p := fun same => fresh (same ▸ member)
      exact keeps'.live_iff.mpr ⟨n, List.mem_filter.mpr ⟨old, decide_eq_true other⟩⟩
    obtain ⟨after, run, keeps''⟩ := ih keeps' left once
    exact ⟨after, .call legal ran run, keeps''⟩

end Freeing

section Undoing

/-- `kfree` after `kmalloc` gives back the list of headers, and no other block in use is
touched by either. -/
theorem kfree_undoes_kmalloc (a : Arena) (m : Bytes) {calls : List HeapCall} {s : Session}
    (run : HeapRun (Session.start a m) calls s) {size : UInt32} {p : ℕ} {given : Heap}
    (done : kmalloc s.heap size = some (p, given)) (nonnull : p ≠ 0) :
    ∃ headers freed, s.heap.headers = some headers ∧ kfree given p = some freed ∧ freed.headers = some headers ∧
      HeapRun s [.kmalloc size, .kfree p] ⟨freed, s.live⟩ ∧
      ∀ b ∈ headers, b.free = false → p ≠ b.address + 12 ∧ ∀ x, b.address + 12 ≤ x → x < b.address + 12 + b.size →
        given.mem x = s.heap.mem x ∧ freed.mem x = s.heap.mem x := by
  have keeps := (start_keeps a m).run run
  obtain ⟨freed, back, holds, fresh, frame⟩ := keeps.holds.undo done nonnull
  refine ⟨_, freed, keeps.holds.headers_eq, back, holds.headers_eq, ?_, fun b member used => ?_⟩
  · have others : ∀ g ∈ s.live, g.pointer ≠ p := by
      intro g member same
      obtain ⟨n, taken⟩ := (keeps.owned p).mp ⟨g.size, same ▸ keeps.grant member⟩
      exact fresh n taken
    have ran : (HeapCall.kmalloc size).run s = some ⟨given, ⟨p, size.toNat, fun _ => none⟩ :: s.live⟩ := by
      simp [HeapCall.run, done, nonnull]
    have ran' : (HeapCall.kfree p).run ⟨given, ⟨p, size.toNat, fun _ => none⟩ :: s.live⟩ = some ⟨freed, s.live⟩ := by
      simpa [HeapCall.run, back] using others
    exact .call trivial ran (.call (.inr ⟨_, List.mem_cons_self, rfl⟩) ran' .done)
  · have block := headersOf_taken.mpr ⟨b, member, used, rfl, rfl⟩
    exact ⟨fun same => fresh _ (same ▸ block), frame _ _ block⟩

theorem kfree_undoes_kmalloc_of_sample : ∃ s p given freed, HeapRun (Session.start sampleArena fun _ => 0) sampleCalls s ∧
    kmalloc s.heap 200 = some (p, given) ∧ p ≠ 0 ∧ kfree given p = some freed ∧ freed.headers = s.heap.headers := by
  obtain ⟨s, run⟩ := sample_run
  have keeps := (start_keeps sampleArena fun _ => 0).run run
  obtain ⟨p, given, done, nonnull⟩ : ∃ p given, kmalloc s.heap 200 = some (p, given) ∧ p ≠ 0 :=
    keeps.holds.kmalloc_granted (by decide) (by decide)
  obtain ⟨headers, freed, listed, back, listed', _⟩ := kfree_undoes_kmalloc sampleArena (fun _ => 0) run done nonnull
  exact ⟨s, p, given, freed, run, done, nonnull, back, listed'.trans listed.symm⟩

/-- Live pointers may be freed in any order. When all are freed, the heap is as fresh. -/
theorem kfree_order_irrelevant (a : Arena) (m : Bytes) {calls : List HeapCall} {s : Session}
    (run : HeapRun (Session.start a m) calls s) {ps qs : List ℕ} (live : ∀ p ∈ ps, ∃ g ∈ s.live, g.pointer = p)
    (once : ps.Nodup) (order : qs.Perm ps) :
    ∃ left right headers, HeapRun s (ps.map HeapCall.kfree) left ∧ HeapRun s (qs.map HeapCall.kfree) right ∧
      left.heap.headers = some headers ∧ right.heap.headers = some headers ∧
      ((∀ g ∈ s.live, g.pointer ∈ ps) →
        headers = [⟨a.base, heapSize - 12, true⟩] ∧ (heapInit a m).headers = some headers) := by
  have keeps := (start_keeps a m).run run
  have nonnull : ∀ p ∈ ps, p ≠ 0 := fun p member => by
    obtain ⟨n, known⟩ := keeps.live_iff.mp (live p member)
    exact keeps.nonnull known
  obtain ⟨left, run_ps, keeps_ps⟩ := keeps.frees live once
  obtain ⟨right, run_qs, keeps_qs⟩ :=
    keeps.frees (fun p member => live p (order.mem_iff.mp member)) (order.nodup_iff.mpr once)
  refine ⟨left, right, _, run_ps, run_qs, keeps_ps.holds.headers_eq, ?_, fun every => ?_⟩
  · rw [← frees_perm _ nonnull order]
    exact keeps_qs.holds.headers_eq
  · rw [keeps.frees_all nonnull every]
    exact ⟨rfl, (heapInit_holds a m).headers_eq⟩

/-- Two blocks, given out and freed in either order. -/
theorem kfree_order_irrelevant_of_two : ∃ s left right, HeapRun (Session.start sampleArena fun _ => 0) [.kmalloc 100, .kmalloc 8] s ∧
    HeapRun s [.kfree 0x10000c, .kfree 0x100080] left ∧ HeapRun s [.kfree 0x100080, .kfree 0x10000c] right ∧
    left.heap.headers = some [⟨0x100000, 262132, true⟩] ∧ right.heap.headers = left.heap.headers := by
  obtain ⟨s1, ran1, keeps1⟩ := (start_keeps sampleArena fun _ => 0).kmalloc_step 100
  obtain ⟨s2, ran2, keeps2⟩ := keeps1.kmalloc_step 8
  have run : HeapRun (Session.start sampleArena fun _ => 0) [.kmalloc 100, .kmalloc 8] s2 :=
    .call trivial ran1 (.call trivial ran2 .done)
  have pointers : s2.live.map Grant.pointer = [0x100080, 0x10000c] := by
    have live : s2.live.map (fun g => (g.pointer, g.size)) = [(0x100080, 8), (0x10000c, 100)] := keeps2.live.trans rfl
    have firsts := congrArg (List.map Prod.fst) live
    rwa [List.map_map] at firsts
  have live : ∀ p ∈ [0x10000c, 0x100080], ∃ g ∈ s2.live, g.pointer = p := fun p member => by
    rw [← List.mem_map, pointers]
    simpa [or_comm] using member
  have every : ∀ g ∈ s2.live, g.pointer ∈ [0x10000c, 0x100080] := fun g member => by
    have := List.mem_map_of_mem (f := Grant.pointer) member
    rw [pointers] at this
    simpa [or_comm] using this
  obtain ⟨left, right, headers, run_ps, run_qs, listed, listed', fresh⟩ :=
    kfree_order_irrelevant sampleArena (fun _ => 0) run live (by decide) (List.Perm.swap 0x10000c 0x100080 [])
  obtain ⟨rfl, _⟩ := fresh every
  exact ⟨s2, left, right, run, run_ps, run_qs, listed, listed'.trans listed.symm⟩

end Undoing

section Fitting

/-- The maximal stretches of the arena between headers in use, each as its address and
its length. Where two blocks in use touch the stretch has length 0. -/
def stretches (a : Arena) (headers : List Header) : List (ℕ × ℕ) :=
  gaps 12 (a.base + heapSize) a.base ((headers.filter fun b => !b.free).map fun b => (b.address + 12, b.size))

theorem headersOf_append : headersOf x (blocks ++ rest) = headersOf x blocks ++ headersOf (x + span 12 blocks) rest := by
  induction blocks generalizing x with
  | nil => rfl
  | cons b tail ih =>
    rw [List.cons_append, headersOf, headersOf, ih, span, List.cons_append]
    simp only [Nat.add_assoc]

theorem headersOf_used (x : ℕ) (blocks : List Block) :
    (((headersOf x blocks).filter fun b => !b.free).map fun b => (b.address + 12, b.size)) = taken 12 x blocks := by
  induction blocks generalizing x with
  | nil => rfl
  | cons b rest ih =>
    rw [headersOf, taken, ← ih]
    cases b.free <;> simp

/-- A stretch with room in it is a free block. -/
theorem mem_stretches (l : HeapLayout) {g : ℕ × ℕ} (long : 0 < g.2) :
    g ∈ stretches a (headersOf a.base l.blocks) ↔ g ∈ room 12 a.base l.blocks := by
  rw [stretches, headersOf_used]
  have same := mem_gaps (a := a.base) (h := 12) (by decide) l.separated long
  rwa [l.full] at same

theorem alignUp_small (small : size.toNat ≤ 2 ^ 32 - 8) : (alignUp size).toNat = (size.toNat + 7) / 8 * 8 := by
  rw [alignUp_toNat, Nat.mod_eq_of_lt (by omega)]

/-- A stretch that is long enough is a free block that is. -/
theorem mem_stretches_fits (l : HeapLayout) {g : ℕ × ℕ} (enough : 12 + n ≤ g.2) :
    g ∈ stretches a (headersOf a.base l.blocks) ↔ g ∈ room 12 a.base l.blocks :=
  mem_stretches l (by omega)

theorem acquire_none_stretches (l : HeapLayout) :
    l.acquire 8 n a.base = none ↔ ∀ g ∈ stretches a (headersOf a.base l.blocks), g.2 < 12 + n := by
  rw [Layout.acquire_eq_none, acquire_none_room]
  constructor
  · intro short g member
    by_contra long
    exact long (short g ((mem_stretches_fits l (Nat.not_lt.mp long)).mp member))
  · intro short g member
    by_contra long
    exact long (short g ((mem_stretches_fits l (Nat.not_lt.mp long)).mpr member))

/-- What is given out is the front of the first stretch that is long enough. -/
theorem acquire_first_stretch {l l' : HeapLayout} (found : l.acquire 8 n a.base = some (p, l')) :
    ∃ g ∈ stretches a (headersOf a.base l.blocks), 12 + n ≤ g.2 ∧
      (∀ f ∈ stretches a (headersOf a.base l.blocks), 12 + n ≤ f.2 → g.1 ≤ f.1) ∧ p = g.1 + 12 ∧
      ∃ pre post, headersOf a.base l.blocks = pre ++ ⟨g.1, g.2 - 12, true⟩ :: post ∧
        headersOf a.base l'.blocks = pre ++ (headersOf g.1 (carve 12 8 n ⟨g.2 - 12, true⟩) ++ post) := by
  obtain ⟨pre, b, post, whole, free, enough, before, place, cut⟩ := acquire_split (Layout.acquire_eq_some.mp found)
  have block : (⟨b.size, true⟩ : Block) = b := by rw [← free]
  have long : 12 + n ≤ 12 + b.size := Nat.add_le_add_left enough 12
  refine ⟨(a.base + span 12 pre, 12 + b.size), ?_, long, ?_, place, headersOf a.base pre,
    headersOf (a.base + span 12 pre + 12 + b.size) post, ?_, ?_⟩
  · rw [mem_stretches_fits l long, whole, room_append, room, free, if_pos rfl]
    exact List.mem_append_right _ List.mem_cons_self
  · intro f member fits
    rw [mem_stretches_fits l fits, whole, room_append] at member
    rcases List.mem_append.mp member with low | high
    · obtain ⟨_, c, inner, free', length⟩ := room_inside low
      have := before c inner free'
      omega
    · exact (room_inside high).1
  · rw [Nat.add_sub_cancel_left, whole, headersOf_append, headersOf, free]
  · rw [Nat.add_sub_cancel_left, block, cut, headersOf_append, headersOf_append, carve_span, ← Nat.add_assoc]

/-- `kmalloc` refuses exactly when no stretch has room for a header and the rounded size.
Otherwise it cuts the block at the start of the lowest stretch that has, and every other
header stays. -/
theorem kmalloc_first_stretch (a : Arena) (m : Bytes) {calls : List HeapCall} {s : Session}
    (run : HeapRun (Session.start a m) calls s) {size : UInt32} (positive : 1 ≤ size.toNat) (small : size.toNat ≤ 2 ^ 32 - 8) :
    ∃ headers p after, s.heap.headers = some headers ∧ kmalloc s.heap size = some (p, after) ∧
      (p = 0 ↔ ∀ g ∈ stretches a headers, g.2 < 12 + (size.toNat + 7) / 8 * 8) ∧
      (p = 0 → after = s.heap) ∧
      (p ≠ 0 → ∃ g ∈ stretches a headers, 12 + (size.toNat + 7) / 8 * 8 ≤ g.2 ∧
        (∀ f ∈ stretches a headers, 12 + (size.toNat + 7) / 8 * 8 ≤ f.2 → g.1 ≤ f.1) ∧ p = g.1 + 12 ∧
        ∃ pre post, headers = pre ++ ⟨g.1, g.2 - 12, true⟩ :: post ∧
          after.headers =
            some (pre ++ (headersOf g.1 (carve 12 8 ((size.toNat + 7) / 8 * 8) ⟨g.2 - 12, true⟩) ++ post))) := by
  have keeps := (start_keeps a m).run run
  generalize calls.foldl (Ledger.call a) ⟨freshLayout, []⟩ = t at keeps
  have nonzero : size ≠ 0 := by
    rintro rfl
    exact absurd positive (by decide)
  rw [← alignUp_small small]
  generalize need : (alignUp size).toNat = wanted
  cases found : t.layout.acquire 8 wanted a.base with
  | none =>
    refine ⟨_, 0, s.heap, keeps.holds.headers_eq, keeps.holds.kmalloc_none nonzero (need ▸ found), ?_, fun _ => rfl,
      fun nonnull => absurd rfl nonnull⟩
    exact iff_of_true rfl ((acquire_none_stretches t.layout).mp found)
  | some result =>
    obtain ⟨p, layout⟩ := result
    obtain ⟨given, done, holds, _⟩ := keeps.holds.kmalloc_some nonzero (need ▸ found)
    obtain ⟨g, member, enough, first, place, pre, post, whole, cut⟩ := acquire_first_stretch found
    have nonnull : p ≠ 0 := by omega
    have granted : ¬ ∀ g ∈ stretches a (headersOf a.base t.layout.blocks), g.2 < 12 + wanted := fun short =>
      Nat.not_lt.mpr enough (short g member)
    refine ⟨_, p, given, keeps.holds.headers_eq, done, iff_of_false nonnull granted, fun null => absurd null nonnull, fun _ => ?_⟩
    exact ⟨g, member, enough, first, place, pre, post, whole, holds.headers_eq.trans (congrArg some cut)⟩

theorem kmalloc_first_stretch_of_sample : ∃ s headers p after, HeapRun (Session.start sampleArena fun _ => 0) sampleCalls s ∧
    s.heap.headers = some headers ∧ kmalloc s.heap 200 = some (p, after) ∧
    (p = 0 ↔ ∀ g ∈ stretches sampleArena headers, g.2 < 212) := by
  obtain ⟨s, run⟩ := sample_run
  obtain ⟨headers, p, after, listed, done, refused, _⟩ :=
    @kmalloc_first_stretch sampleArena (fun _ => 0) sampleCalls s run 200 (by decide) (by decide)
  exact ⟨s, headers, p, after, run, listed, done, refused⟩

end Fitting

end Seaweed
