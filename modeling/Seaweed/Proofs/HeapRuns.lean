import Seaweed.Proofs.HeapBlocks

/-! The heap over whole runs. A `Ledger` is the heap without its bytes: a layout of
blocks and the pointers that are live. Every legal call moves it as the code does. -/

namespace Seaweed
open Library FirstFit

abbrev HeapLayout := Layout 12 heapSize

structure Ledger where
  layout : HeapLayout
  live : List (ℕ × ℕ)

def Ledger.kmalloc (a : Arena) (t : Ledger) (size : UInt32) : Ledger :=
  if size = 0 then t
  else
    match t.layout.acquire 8 (alignUp size).toNat a.base with
    | none => t
    | some (p, layout) => ⟨layout, (p, size.toNat) :: t.live⟩

/-- What a call does to the ledger. A store does nothing to it. -/
def Ledger.call (a : Arena) (t : Ledger) : HeapCall → Ledger
  | .kmalloc size => t.kmalloc a size
  | .kcalloc count size => if 2 ^ 32 ≤ count.toNat * size.toNat then t else t.kmalloc a (count * size)
  | .kfree p =>
    ⟨if p = 0 then t.layout else t.layout.release p a.base, t.live.filter fun g => decide (g.1 ≠ p)⟩
  | .store .. => t

def freshLayout : HeapLayout where
  blocks := [⟨heapSize - 12, true⟩]
  full := rfl
  separated := List.isChain_singleton _

section Operations

variable {a : Arena} {h : Heap} {l after : HeapLayout} {p n x : ℕ} {size : UInt32}

/-- The bytes of the heap are those of a layout. -/
structure Holds (a : Arena) (h : Heap) (l : HeapLayout) : Prop where
  first : h.first = a.base
  stored : Stored h.mem a.base l.blocks

theorem HeapLayout.link_base (l : HeapLayout) (a : ℕ) : link a l.blocks = a := by
  have full := l.full
  cases blocks : l.blocks with
  | nil =>
    rw [blocks] at full
    exact absurd full (by decide)
  | cons b rest => rfl

theorem HeapLayout.length_lt (l : HeapLayout) : l.blocks.length < heapSize := by
  have bound := length_le_span 12 l.blocks
  rw [l.full] at bound
  change _ < 262144
  change _ ≤ 262144 at bound
  omega

theorem heapInit_holds (a : Arena) (m : Bytes) : Holds a (heapInit a m) freshLayout := by
  have fits := a.fits
  refine ⟨rfl, ?_, ?_, ?_, trivial⟩
  · simp (disch := omega) only [heapInit, wordAt_storeWord_other]
    exact wordAt_storeWord_small (by decide)
  · simp (disch := omega) only [heapInit, wordAt_storeWord_other]
    exact wordAt_storeWord_small (by decide)
  · exact wordAt_storeWord_small (by decide)

/-- Clearing the three low bits rounds down to a multiple of 8. -/
theorem alignUp_toNat (value : UInt32) : (alignUp value).toNat = (value.toNat + 7) % 2 ^ 32 / 8 * 8 := by
  have mask : (~~~(heapAlignment - 1)).toNat = (2 ^ 29 - 1) <<< 3 := by decide
  rw [alignUp, UInt32.toNat_and, mask, UInt32.toNat_add]
  change (value.toNat + 7) % 2 ^ 32 &&& _ = _
  have small : (value.toNat + 7) % 2 ^ 32 < 2 ^ 32 := Nat.mod_lt _ (by decide)
  generalize (value.toNat + 7) % 2 ^ 32 = sum at small ⊢
  have down : sum / 8 * 8 = sum >>> 3 <<< 3 := by rw [Nat.shiftRight_eq_div_pow, Nat.shiftLeft_eq]
  rw [down]
  apply Nat.eq_of_testBit_eq
  intro i
  rw [Nat.testBit_and, Nat.testBit_shiftLeft, Nat.testBit_shiftLeft, Nat.testBit_two_pow_sub_one, Nat.testBit_shiftRight]
  by_cases low : 3 ≤ i
  · have back : 3 + (i - 3) = i := by omega
    by_cases high : i - 3 < 29
    · simp [low, high, back]
    · have zero : sum.testBit i = false :=
        Nat.testBit_lt_two_pow (small.trans_le (Nat.pow_le_pow_right (by decide) (by omega)))
      simp [back, zero]
  · simp [low]

theorem le_alignUp (small : size.toNat ≤ 2 ^ 32 - 8) : size.toNat ≤ (alignUp size).toNat := by
  rw [alignUp_toNat]
  omega

theorem Holds.kmalloc_none (holds : Holds a h l) (nonzero : size ≠ 0)
    (none : l.acquire 8 (alignUp size).toNat a.base = none) : kmalloc h size = some (0, h) := by
  have searched := holds.stored.kmallocFrom_none a.positive l.length_lt (Layout.acquire_eq_none.mp none)
  rw [l.link_base, ← holds.first] at searched
  rw [kmalloc, if_neg nonzero, searched]
  rfl

theorem Holds.kmalloc_some (holds : Holds a h l) (nonzero : size ≠ 0)
    (found : l.acquire 8 (alignUp size).toNat a.base = some (p, after)) :
    ∃ h', kmalloc h size = some (p, h') ∧ Holds a h' after ∧ ∀ x, ¬ InHeader a.base after.blocks x → h'.mem x = h.mem x := by
  have fits := a.fits
  have full := l.full
  obtain ⟨m, searched, stored, frame⟩ := holds.stored.kmallocFrom_some a.positive
    (by rw [full]; decide) (by rw [full]; exact fits) l.length_lt (Layout.acquire_eq_some.mp found)
  refine ⟨⟨m, h.first⟩, ?_, ⟨holds.first, stored⟩, frame⟩
  rw [← holds.first] at searched
  rw [kmalloc, if_neg nonzero, searched]
  rfl

theorem Holds.kfree_some (holds : Holds a h l) (member : (p, n) ∈ taken 12 a.base l.blocks) :
    ∃ h', kfree h p = some h' ∧ Holds a h' (l.release p a.base) ∧ ∀ x, ¬ InHeader a.base l.blocks x → h'.mem x = h.mem x := by
  have fits := a.fits
  have nonnull : p ≠ 0 := by
    have := (taken_inside member).1
    omega
  obtain ⟨marked, frame, headers⟩ := holds.stored.released member
  have full : span 12 (release 12 p a.base l.blocks) = heapSize := release_span.trans l.full
  have short : (release 12 p a.base l.blocks).length < heapSize := by
    have bound := length_le_span 12 (release 12 p a.base l.blocks)
    rw [full] at bound
    change _ < 262144
    change _ ≤ 262144 at bound
    omega
  cases blocks : release 12 p a.base l.blocks with
  | nil =>
    rw [blocks] at full
    exact absurd full (by decide)
  | cons b rest =>
    rw [blocks] at marked full short headers
    simp only [span] at full
    obtain ⟨m, joined, stored, frame'⟩ := marked.coalesceFrom_eq a.positive (by omega)
      (Nat.lt_of_succ_lt short)
    refine ⟨⟨m, h.first⟩, ?_, ⟨holds.first, ?_⟩, fun x outside => ?_⟩
    · rw [← holds.first] at joined
      simp only [kfree, if_neg nonnull, blockHeader, joined]
      rfl
    · simp only [Layout.release, blocks]
      exact stored
    · exact (frame' x fun inside => outside ((headers x).mp inside)).trans (frame x outside)

/-- The division in `kcalloc` catches exactly the products that do not fit. -/
theorem product_caught (count size : UInt32) :
    (count ≠ 0 ∧ count * size / count ≠ size) ↔ 2 ^ 32 ≤ count.toNat * size.toNat := by
  have product : (count * size).toNat = count.toNat * size.toNat % 2 ^ 32 := UInt32.toNat_mul count size
  have quotient : (count * size / count).toNat = count.toNat * size.toNat % 2 ^ 32 / count.toNat := by
    rw [UInt32.toNat_div, product]
  constructor
  · rintro ⟨nonzero, differ⟩
    by_contra small
    have positive : 0 < count.toNat := by
      refine Nat.pos_of_ne_zero fun zero => nonzero ?_
      exact UInt32.toNat_inj.mp zero
    apply differ
    apply UInt32.toNat_inj.mp
    rw [quotient, Nat.mod_eq_of_lt (by omega), Nat.mul_div_cancel_left _ positive]
  · intro large
    refine ⟨?_, fun same => ?_⟩
    · rintro rfl
      simp at large
    · have equal := congrArg UInt32.toNat same
      rw [quotient] at equal
      have bound := Nat.div_mul_le_self (count.toNat * size.toNat % 2 ^ 32) count.toNat
      rw [equal, Nat.mul_comm] at bound
      have := Nat.mod_lt (count.toNat * size.toNat) (Nat.two_pow_pos 32)
      omega

theorem kcalloc_caught {count : UInt32} (large : 2 ^ 32 ≤ count.toNat * size.toNat) : kcalloc h count size = some (0, h) := by
  rw [kcalloc, if_pos ((product_caught count size).mpr large)]

/-- A product that fits is the size asked of `kmalloc`, and that many bytes are cleared. -/
theorem kcalloc_fits {count : UInt32} (small : count.toNat * size.toNat < 2 ^ 32) {given : Heap}
    (done : kmalloc h (count * size) = some (p, given)) :
    (count * size).toNat = count.toNat * size.toNat ∧
      kcalloc h count size =
        some (p, if p = 0 then given else { given with mem := clear given.mem p (count * size).toNat }) := by
  have passes : ¬ (count ≠ 0 ∧ count * size / count ≠ size) := fun test =>
    absurd ((product_caught count size).mp test) (Nat.not_le.mpr small)
  refine ⟨by rw [UInt32.toNat_mul, Nat.mod_eq_of_lt small], ?_⟩
  simp only [kcalloc, if_neg passes, done, Option.bind_eq_bind, Option.bind_some]
  by_cases null : p = 0
  · rw [if_neg (not_not_intro null), if_pos null]
  · rw [if_pos null, if_neg null]

end Operations

section Sessions

variable {a : Arena} {s after : Session} {t : Ledger} {call : HeapCall} {p n : ℕ}

/-- A session and the ledger kept of it. -/
structure Keeps (a : Arena) (s : Session) (t : Ledger) : Prop where
  holds : Holds a s.heap t.layout
  live : s.live.map (fun g => (g.pointer, g.size)) = t.live
  owned : ∀ p, (∃ n, (p, n) ∈ t.live) ↔ ∃ n, (p, n) ∈ taken 12 a.base t.layout.blocks
  distinct : (t.live.map Prod.fst).Nodup
  room : ∀ p n, (p, n) ∈ t.live → n ≤ 2 ^ 32 - 8 → ∃ k, n ≤ k ∧ (p, k) ∈ taken 12 a.base t.layout.blocks
  kept : ∀ g ∈ s.live, g.size ≤ 2 ^ 32 - 8 → ∀ k value, k < g.size → g.stored k = some value →
    s.heap.mem (g.pointer + k) = value

theorem Keeps.grant (keeps : Keeps a s t) {g : Grant} (member : g ∈ s.live) : (g.pointer, g.size) ∈ t.live := by
  rw [← keeps.live]
  exact List.mem_map_of_mem member

theorem Keeps.live_iff (keeps : Keeps a s t) : (∃ g ∈ s.live, g.pointer = p) ↔ ∃ n, (p, n) ∈ t.live := by
  constructor
  · rintro ⟨g, member, rfl⟩
    exact ⟨g.size, keeps.grant member⟩
  · rintro ⟨n, member⟩
    rw [← keeps.live] at member
    obtain ⟨g, here, same⟩ := List.mem_map.mp member
    cases same
    exact ⟨g, here, rfl⟩

/-- The bytes asked for lie clear of the headers. -/
theorem Keeps.clear (keeps : Keeps a s t) {g : Grant} (member : g ∈ s.live) (small : g.size ≤ 2 ^ 32 - 8) {k : ℕ}
    (inside : k < g.size) : ¬ InHeader a.base t.layout.blocks (g.pointer + k) := by
  obtain ⟨size, enough, block⟩ := keeps.room g.pointer g.size (keeps.grant member) small
  exact InHeader.apart block (Nat.le_add_right _ _) (by omega)

theorem Keeps.once (keeps : Keeps a s t) : (s.live.map Grant.pointer).Nodup := by
  have distinct := keeps.distinct
  rw [← keeps.live, List.map_map] at distinct
  exact distinct

theorem Keeps.nonnull (keeps : Keeps a s t) (member : (p, n) ∈ t.live) : p ≠ 0 := by
  obtain ⟨k, block⟩ := (keeps.owned p).mp ⟨n, member⟩
  have positive := a.positive
  have := (taken_inside block).1
  omega

theorem start_keeps (a : Arena) (m : Bytes) : Keeps a (Session.start a m) ⟨freshLayout, []⟩ where
  holds := heapInit_holds a m
  live := rfl
  owned := by simp [freshLayout, taken]
  distinct := List.nodup_nil
  room := fun _ _ member => absurd member List.not_mem_nil
  kept := fun _ member => absurd member List.not_mem_nil

private theorem run_kmalloc_null {size : UInt32} (done : kmalloc s.heap size = some (0, s.heap)) :
    (HeapCall.kmalloc size).run s = some s := by
  simp [HeapCall.run, done]

theorem Keeps.kmalloc_step (keeps : Keeps a s t) (size : UInt32) :
    ∃ after, (HeapCall.kmalloc size).run s = some after ∧ Keeps a after (t.kmalloc a size) := by
  by_cases zero : size = 0
  · have done : kmalloc s.heap size = some (0, s.heap) := by rw [kmalloc, if_pos zero]
    refine ⟨s, run_kmalloc_null done, ?_⟩
    rw [Ledger.kmalloc, if_pos zero]
    exact keeps
  rw [Ledger.kmalloc, if_neg zero]
  cases found : t.layout.acquire 8 (alignUp size).toNat a.base with
  | none => exact ⟨s, run_kmalloc_null (keeps.holds.kmalloc_none zero found), keeps⟩
  | some result =>
    obtain ⟨p, layout⟩ := result
    obtain ⟨h, done, holds, frame⟩ := keeps.holds.kmalloc_some zero found
    have given := Layout.acquire_eq_some.mp found
    obtain ⟨block, enough, only⟩ := acquire_taken given
    have fresh : ∀ n, (p, n) ∉ t.live := by
      intro n member
      obtain ⟨k, taken⟩ := (keeps.owned p).mp ⟨n, member⟩
      exact acquire_fresh (by decide) given taken
    have nonnull : p ≠ 0 := by
      have positive := a.positive
      have := (taken_inside ((only (p, block)).mpr (.inl rfl))).1
      omega
    refine ⟨⟨h, ⟨p, size.toNat, fun _ => none⟩ :: s.live⟩, by simp [HeapCall.run, done, nonnull], holds, ?_, ?_, ?_, ?_, ?_⟩
    · rw [List.map_cons, keeps.live]
    · intro q
      simp only [List.mem_cons, exists_or, only, Prod.mk.injEq, exists_and_left, exists_eq, and_true, keeps.owned q]
    · refine List.nodup_cons.mpr ⟨fun member => ?_, keeps.distinct⟩
      obtain ⟨⟨q, n⟩, here, same⟩ := List.mem_map.mp member
      cases same
      exact fresh n here
    · intro q n member small
      rcases List.mem_cons.mp member with new | old
      · cases new
        exact ⟨block, (le_alignUp small).trans enough, (only _).mpr (.inl rfl)⟩
      · obtain ⟨k, large, here⟩ := keeps.room q n old small
        exact ⟨k, large, (only _).mpr (.inr here)⟩
    · intro g member small k value inside stored
      rcases List.mem_cons.mp member with rfl | old
      · cases stored
      · obtain ⟨k', large, here⟩ := keeps.room g.pointer g.size (keeps.grant old) small
        have clear : ¬ InHeader a.base layout.blocks (g.pointer + k) :=
          InHeader.apart ((only _).mpr (.inr here)) (Nat.le_add_right _ _) (by omega)
        exact (frame _ clear).trans (keeps.kept g old small k value inside stored)

theorem Keeps.kfree_step (keeps : Keeps a s t) (legal : (HeapCall.kfree p).Legal s) :
    ∃ after, (HeapCall.kfree p).run s = some after ∧ Keeps a after (t.call a (.kfree p)) := by
  have live : (s.live.filter fun g => decide (g.pointer ≠ p)).map (fun g => (g.pointer, g.size)) =
      t.live.filter fun g => decide (g.1 ≠ p) := by
    rw [← keeps.live, List.filter_map]
    rfl
  have distinct : ((t.live.filter fun g => decide (g.1 ≠ p)).map Prod.fst).Nodup :=
    keeps.distinct.sublist (List.filter_sublist.map Prod.fst)
  have left : ∀ {q n}, (q, n) ∈ (t.live.filter fun g => decide (g.1 ≠ p)) ↔ (q, n) ∈ t.live ∧ q ≠ p := by
    intro q n
    rw [List.mem_filter, decide_eq_true_eq]
  by_cases null : p = 0
  · subst null
    have whole : (s.live.filter fun g => decide (g.pointer ≠ 0)) = s.live :=
      List.filter_eq_self.mpr fun g member => decide_eq_true (keeps.nonnull (keeps.grant member))
    have whole' : (t.live.filter fun g => decide (g.1 ≠ 0)) = t.live :=
      List.filter_eq_self.mpr fun g member => decide_eq_true (keeps.nonnull member)
    have done : kfree s.heap 0 = some s.heap := by rw [kfree, if_pos rfl]
    refine ⟨s, by simp only [HeapCall.run, done, whole]; rfl, ?_⟩
    rw [Ledger.call, if_pos rfl, whole']
    exact keeps
  · obtain ⟨n, member⟩ := (keeps.owned p).mp (keeps.live_iff.mp (legal.resolve_left null))
    obtain ⟨h, done, holds, frame⟩ := keeps.holds.kfree_some member
    have blocks : taken 12 a.base (t.layout.release p a.base).blocks =
        (taken 12 a.base t.layout.blocks).filter fun x => decide (x.1 ≠ p) :=
      merge_taken.trans (release_taken (by decide))
    rw [Ledger.call, if_neg null]
    refine ⟨⟨h, s.live.filter fun g => decide (g.pointer ≠ p)⟩, by simp [HeapCall.run, done], holds, live, ?_, distinct, ?_, ?_⟩
    · intro q
      simp only [left, blocks, List.mem_filter, decide_eq_true_eq, exists_and_right, keeps.owned q]
    · intro q n member small
      obtain ⟨old, other⟩ := left.mp member
      obtain ⟨k, large, here⟩ := keeps.room q n old small
      exact ⟨k, large, by rw [blocks]; exact List.mem_filter.mpr ⟨here, decide_eq_true other⟩⟩
    · intro g member small k value inside stored
      have old := (List.mem_filter.mp member).1
      exact (frame _ (keeps.clear old small inside)).trans (keeps.kept g old small k value inside stored)

/-- A caller changes bytes that it asked for, and what is noted of them changes along. -/
theorem Keeps.fill (keeps : Keeps a s t) {g : Grant} (member : g ∈ s.live) (small : g.size ≤ 2 ^ 32 - 8) (m : Bytes)
    (note : (ℕ → Option UInt8) → ℕ → Option UInt8)
    (frame : ∀ x, ¬ (g.pointer ≤ x ∧ x < g.pointer + g.size) → m x = s.heap.mem x)
    (agrees : ∀ f ∈ s.live, f.pointer = g.pointer → f.size ≤ 2 ^ 32 - 8 → ∀ k value, k < f.size →
      note f.stored k = some value → m (f.pointer + k) = value) :
    Keeps a ⟨{ s.heap with mem := m }, s.live.map fun f => if f.pointer = g.pointer then { f with stored := note f.stored } else f⟩ t := by
  obtain ⟨n, large, block⟩ := keeps.room g.pointer g.size (keeps.grant member) small
  refine ⟨⟨keeps.holds.first, keeps.holds.stored.congr fun x header => frame x fun inside => ?_⟩, ?_, keeps.owned,
    keeps.distinct, keeps.room, ?_⟩
  · exact InHeader.apart block inside.1 (by omega) header
  · rw [List.map_map, ← keeps.live]
    apply List.map_congr_left
    intro f _
    simp only [Function.comp]
    split <;> rfl
  · intro f changed small' k value inside stored
    obtain ⟨old, here, rfl⟩ := List.mem_map.mp changed
    by_cases same : old.pointer = g.pointer
    · rw [if_pos same] at inside small' stored ⊢
      exact agrees old here same small' k value inside stored
    · rw [if_neg same] at inside small' stored ⊢
      -- Different live blocks share no byte.
      obtain ⟨n', large', block'⟩ := keeps.room _ _ (keeps.grant here) small'
      have apart := taken_disjoint block' block same
      simp only at apart
      exact (frame _ (by omega)).trans (keeps.kept old here small' k value inside stored)

theorem Keeps.store_step (keeps : Keeps a s t) {k : ℕ} {value : UInt8} (legal : (HeapCall.store p k value).Legal s) :
    ∃ after, (HeapCall.store p k value).run s = some after ∧ Keeps a after t := by
  obtain ⟨g, member, rfl, inside, small⟩ := legal
  refine ⟨_, rfl, keeps.fill member small (Function.update s.heap.mem (g.pointer + k) value)
    (fun noted => Function.update noted k (some value)) (fun x outside => ?_) fun f here same small' j byte within stored => ?_⟩
  · refine Function.update_of_ne ?_ ..
    rintro rfl
    exact outside ⟨Nat.le_add_right _ _, by omega⟩
  · rw [same]
    by_cases spot : j = k
    · subst spot
      rw [Function.update_self] at stored ⊢
      exact Option.some.inj stored
    · rw [Function.update_of_ne spot] at stored
      rw [Function.update_of_ne (by omega), ← same]
      exact keeps.kept f here small' j byte within stored

theorem Keeps.kcalloc_step (keeps : Keeps a s t) {count size : UInt32} (legal : (HeapCall.kcalloc count size).Legal s) :
    ∃ after, (HeapCall.kcalloc count size).run s = some after ∧ Keeps a after (t.call a (.kcalloc count size)) := by
  rw [Ledger.call]
  by_cases large : 2 ^ 32 ≤ count.toNat * size.toNat
  · refine ⟨s, by simp [HeapCall.run, kcalloc_caught large], ?_⟩
    rw [if_pos large]
    exact keeps
  rw [if_neg large]
  obtain ⟨middle, ran, keeps'⟩ := keeps.kmalloc_step (count * size)
  obtain ⟨⟨p, given⟩, done, same⟩ := Option.bind_eq_some_iff.mp ran
  obtain ⟨total, called⟩ := kcalloc_fits (Nat.not_le.mp large) done
  have small : (count * size).toNat ≤ 2 ^ 32 - 8 := by
    rw [total]
    exact legal.resolve_right large
  by_cases null : p = 0
  · subst null
    cases same
    exact ⟨_, by simp [HeapCall.run, called], keeps'⟩
  simp only [if_neg null] at same called
  cases same
  -- The cleared bytes are those just asked for.
  have others : ∀ f ∈ s.live, f.pointer ≠ p := by
    rintro f here rfl
    exact (List.nodup_cons.mp keeps'.once).1 (List.mem_map.mpr ⟨f, here, rfl⟩)
  have filled := keeps'.fill List.mem_cons_self small (Seaweed.clear given.mem p (count * size).toNat) (fun _ _ => some 0)
    (fun x outside => if_neg outside) fun f here same _ k value inside stored => by
      rcases List.mem_cons.mp here with rfl | old
      · cases stored
        exact if_pos ⟨Nat.le_add_right _ _, by simpa using inside⟩
      · exact absurd same (others f old)
  have rest : s.live.map (fun f => if f.pointer = p then { f with stored := fun _ => some 0 } else f) = s.live :=
    (List.map_congr_left fun f here => if_neg (others f here)).trans (List.map_id _)
  rw [List.map_cons, if_pos rfl, rest] at filled
  refine ⟨_, ?_, filled⟩
  simp only [HeapCall.run, called, Option.bind_eq_bind, Option.bind_some, if_neg null]

/-- What one legal call does: it returns, and the ledger is kept. -/
theorem Keeps.step (keeps : Keeps a s t) (legal : call.Legal s) :
    ∃ after, call.run s = some after ∧ Keeps a after (t.call a call) := by
  cases call with
  | kmalloc size => exact keeps.kmalloc_step size
  | kcalloc count size => exact keeps.kcalloc_step legal
  | kfree p => exact keeps.kfree_step legal
  | store p k value => exact keeps.store_step legal

theorem Keeps.run {calls : List HeapCall} (keeps : Keeps a s t) (run : HeapRun s calls after) :
    Keeps a after (calls.foldl (Ledger.call a) t) := by
  induction run generalizing t with
  | done => exact keeps
  | call legal ran _ ih =>
    obtain ⟨middle, ran', keeps'⟩ := keeps.step legal
    cases ran.symm.trans ran'
    exact ih keeps'

end Sessions

end Seaweed
