import Seaweed.Heap
import Seaweed.Library.FirstFit

/-! The headers in memory as a list of blocks, and what the loops of `heap.c` do to it:
each is the operation on the list, and stores into headers only. -/

namespace Seaweed
open Library FirstFit

variable {m : Bytes} {a p n x : ℕ} {b : Block} {blocks rest after : List Block}

def link (a : ℕ) : List Block → ℕ
  | [] => 0
  | _ :: _ => a

/-- The headers of the blocks from `a` on, as they stand in memory. -/
def Stored (m : Bytes) : ℕ → List Block → Prop
  | _, [] => True
  | a, b :: rest =>
    wordAt m a = b.size ∧ wordAt m (a + 4) = (if b.free then 1 else 0) ∧
      wordAt m (a + 8) = link (a + 12 + b.size) rest ∧ Stored m (a + 12 + b.size) rest

def InHeader : ℕ → List Block → ℕ → Prop
  | _, [], _ => False
  | a, b :: rest, x => (a ≤ x ∧ x < a + 12) ∨ InHeader (a + 12 + b.size) rest x

section Reading

theorem InHeader.le (inside : InHeader a blocks x) : a ≤ x := by
  induction blocks generalizing a with
  | nil => cases inside
  | cons b rest ih =>
    rcases inside with here | later
    · exact here.1
    · have := ih later
      omega

/-- Headers and blocks in use share no byte. -/
theorem InHeader.apart (member : (p, n) ∈ taken 12 a blocks) (low : p ≤ x) (high : x < p + n) :
    ¬ InHeader a blocks x := by
  induction blocks generalizing a with
  | nil => cases member
  | cons b rest ih =>
    rw [taken] at member
    rintro (here | inside)
    · rcases List.mem_append.mp member with first | later
      · split at first
        next => cases first
        next =>
          cases List.mem_singleton.mp first
          omega
      · have := (taken_inside later).1
        omega
    · rcases List.mem_append.mp member with first | later
      · split at first
        next => cases first
        next =>
          cases List.mem_singleton.mp first
          have := inside.le
          omega
      · exact ih later inside

/-- The list depends on the bytes of its headers only. -/
theorem Stored.congr {m' : Bytes} (stored : Stored m a blocks) (same : ∀ x, InHeader a blocks x → m' x = m x) :
    Stored m' a blocks := by
  induction blocks generalizing a with
  | nil => trivial
  | cons b rest ih =>
    obtain ⟨size, free, next, later⟩ := stored
    have word : ∀ k, k + 4 ≤ 12 → wordAt m' (a + k) = wordAt m (a + k) := fun k low =>
      wordAt_congr fun j inside => same _ (.inl (by omega))
    refine ⟨(word 0 (by decide)).trans size, (word 4 (by decide)).trans free, (word 8 (by decide)).trans next, ?_⟩
    exact ih later fun x inside => same x (.inr inside)

theorem Stored.blockSize_toNat (stored : Stored m a (b :: rest)) : (blockSize m a).toNat = b.size := by
  rw [blockSize, UInt32.toNat_ofNat_of_lt' (wordAt_lt m a)]
  exact stored.1

theorem Stored.blockFree_eq (stored : Stored m a (b :: rest)) : blockFree m a = b.free := by
  rw [blockFree, stored.2.1]
  cases b.free <;> rfl

theorem Stored.blockNext_eq (stored : Stored m a (b :: rest)) : blockNext m a = link (a + 12 + b.size) rest :=
  stored.2.2.1

/-- A change behind the first block that keeps the pointer to the rest. -/
theorem Stored.behind {m' : Bytes} {rest' : List Block} (stored : Stored m a (b :: rest))
    (below : ∀ x, x < a + 12 + b.size → m' x = m x) (later : Stored m' (a + 12 + b.size) rest')
    (links : link (a + 12 + b.size) rest' = link (a + 12 + b.size) rest) : Stored m' a (b :: rest') := by
  have word : ∀ k, k + 4 ≤ 12 → wordAt m' (a + k) = wordAt m (a + k) := fun k low =>
    wordAt_congr fun j inside => below _ (by omega)
  obtain ⟨size, free, next, _⟩ := stored
  refine ⟨(word 0 (by decide)).trans size, (word 4 (by decide)).trans free, ?_, later⟩
  rw [word 8 (by decide), next, links]

end Reading

section Giving

theorem Stored.mark (stored : Stored m a (b :: rest)) (flag : Bool) :
    Stored (storeWord m (a + 4) (if flag then 1 else 0)) a (⟨b.size, flag⟩ :: rest) := by
  obtain ⟨size, _, next, later⟩ := stored
  refine ⟨?_, ?_, ?_, later.congr fun x inside => storeWord_outside ?_⟩
  · rwa [wordAt_storeWord_other (by omega)]
  · cases flag <;> exact wordAt_storeWord_small (by decide)
  · rwa [wordAt_storeWord_other (by omega)]
  · have := inside.le
    omega

theorem Stored.split_eq (stored : Stored m a (b :: rest)) {wanted : UInt32} (fits : wanted.toNat ≤ b.size)
    (small : b.size + 20 < 2 ^ 32) :
    split m a wanted =
      if b.size < wanted.toNat + 12 + 8 then m
      else
        storeWord (storeWord (storeWord (storeWord (storeWord m (a + 12 + wanted.toNat)
          (b.size - wanted.toNat - 12)) (a + 12 + wanted.toNat + 4) 1) (a + 12 + wanted.toNat + 8)
          (link (a + 12 + b.size) rest)) a wanted.toNat) (a + 8) (a + 12 + wanted.toNat) := by
  have size := stored.blockSize_toNat
  have sum : (wanted + 12 + heapAlignment).toNat = wanted.toNat + 12 + 8 := by
    rw [UInt32.toNat_add, UInt32.toNat_add]
    change ((wanted.toNat + 12) % 2 ^ 32 + 8) % 2 ^ 32 = _
    omega
  have whole : blockSize m a < wanted + 12 + heapAlignment ↔ b.size < wanted.toNat + 12 + 8 := by
    rw [UInt32.lt_iff_toNat_lt, sum, size]
  unfold split
  simp only [whole, payload]
  split
  next => rfl
  next large =>
    have left : (blockSize m a - wanted - 12).toNat = b.size - wanted.toNat - 12 := by
      have first : (blockSize m a - wanted).toNat = b.size - wanted.toNat := by
        rw [UInt32.toNat_sub_of_le _ _ (UInt32.le_iff_toNat_le.mpr (by omega)), size]
      have twelve : (12 : UInt32).toNat = 12 := rfl
      rw [UInt32.toNat_sub_of_le _ _ (UInt32.le_iff_toNat_le.mpr (by omega)), first, twelve]
    have next : blockNext (storeWord (storeWord m (a + 12 + wanted.toNat) (b.size - wanted.toNat - 12))
        (a + 12 + wanted.toNat + 4) 1) a = link (a + 12 + b.size) rest := by
      rw [blockNext, wordAt_storeWord_other (by omega), wordAt_storeWord_other (by omega)]
      exact stored.2.2.1
    simp only [left, next]

/-- `kmalloc` gives out block `a`: it cuts it as `carve` says, through its headers. -/
theorem Stored.give (stored : Stored m a (b :: rest)) {wanted : UInt32} (fits : wanted.toNat ≤ b.size)
    (small : b.size + 20 < 2 ^ 32) (bound : a + 12 + b.size + span 12 rest ≤ 2 ^ 32) :
    Stored (storeWord (split m a wanted) (a + 4) 0) a (carve 12 8 wanted.toNat b ++ rest) ∧
      ∀ x, ¬ InHeader a (carve 12 8 wanted.toNat b ++ rest) x →
        storeWord (split m a wanted) (a + 4) 0 x = m x := by
  rw [stored.split_eq fits small, carve]
  split
  next =>
    refine ⟨stored.mark false, fun x outside => storeWord_outside ?_⟩
    have : ¬ (a ≤ x ∧ x < a + 12) := fun here => outside (.inl here)
    omega
  next large =>
    obtain ⟨size, _, _, later⟩ := stored
    generalize cut : a + 12 + wanted.toNat = r
    have after : r + 12 + (b.size - wanted.toNat - 12) = a + 12 + b.size := by omega
    have pointer : r < 2 ^ 32 := by omega
    have next : link (a + 12 + b.size) rest < 2 ^ 32 := by
      cases rest with
      | nil => exact Nat.two_pow_pos 32
      | cons c tail =>
        simp only [span] at bound
        simp only [link]
        omega
    refine ⟨⟨?_, ?_, ?_, ?_, ?_, ?_, ?_⟩, fun x outside => ?_⟩
    · simp (disch := omega) only [wordAt_storeWord_other, wordAt_storeWord_small]
    · exact wordAt_storeWord_small (by decide)
    · simp (disch := omega) only [wordAt_storeWord_other, wordAt_storeWord_small]
      exact cut.symm
    · simp only [cut]
      simp (disch := omega) only [wordAt_storeWord_other, wordAt_storeWord_small]
    · simp only [cut]
      simp (disch := omega) only [wordAt_storeWord_other, wordAt_storeWord_small, if_true]
    · simp only [cut, after]
      simp (disch := omega) only [wordAt_storeWord_other, wordAt_storeWord_small]
      rfl
    · simp only [cut, after]
      apply later.congr
      intro x inside
      have := inside.le
      simp (disch := omega) only [storeWord_outside]
    · have first : ¬ (a ≤ x ∧ x < a + 12) := fun here => outside (.inl here)
      have second : ¬ (r ≤ x ∧ x < r + 12) := fun here => outside (.inr (.inl (by rw [cut]; exact here)))
      simp (disch := omega) only [storeWord_outside]

theorem acquire_link {t wanted : ℕ} (found : acquire 12 t wanted a blocks = some (p, after)) :
    link a blocks = a ∧ link a after = a := by
  cases blocks with
  | nil => cases found
  | cons b rest =>
    refine ⟨rfl, ?_⟩
    rw [acquire] at found
    split at found
    next =>
      cases found
      unfold carve
      split <;> rfl
    next =>
      obtain ⟨_, _, same⟩ := Option.map_eq_some_iff.mp found
      cases same
      rfl

theorem Stored.fits_iff (stored : Stored m a (b :: rest)) (size : UInt32) :
    (blockFree m a = true ∧ size ≤ blockSize m a) ↔ b.free = true ∧ size.toNat ≤ b.size := by
  rw [stored.blockFree_eq, UInt32.le_iff_toNat_le, stored.blockSize_toNat]

/-- The search of `kmalloc` is the search along the list of blocks. -/
theorem Stored.kmallocFrom_some {size : UInt32} {fuel : ℕ} (stored : Stored m a blocks) (positive : 0 < a)
    (small : span 12 blocks + 20 < 2 ^ 32) (bound : a + span 12 blocks ≤ 2 ^ 32) (enough : blocks.length < fuel)
    (found : acquire 12 8 size.toNat a blocks = some (p, after)) :
    ∃ m', kmallocFrom size fuel m a = some (p, m') ∧ Stored m' a after ∧ ∀ x, ¬ InHeader a after x → m' x = m x := by
  induction blocks generalizing a p after fuel with
  | nil => cases found
  | cons b rest ih =>
    obtain ⟨fuel, rfl⟩ := Nat.exists_eq_add_one.mpr (Nat.zero_lt_of_lt enough)
    simp only [span] at small bound
    have nonnull : a ≠ 0 := by omega
    rw [acquire] at found
    rw [kmallocFrom, if_neg nonnull]
    split at found
    next good =>
      cases found
      rw [if_pos ((stored.fits_iff size).mpr good)]
      exact ⟨_, rfl, stored.give good.2 (by omega) (by omega)⟩
    next bad =>
      obtain ⟨⟨q, tail⟩, inner, same⟩ := Option.map_eq_some_iff.mp found
      cases same
      obtain ⟨old, new⟩ := acquire_link inner
      rw [if_neg fun test => bad ((stored.fits_iff size).mp test)]
      obtain ⟨m', ran, stored', frame⟩ :=
        ih stored.2.2.2 (by omega) (by omega) (by omega) (Nat.lt_of_succ_lt_succ enough) inner
      rw [stored.blockNext_eq, old, ran]
      -- The rest writes nothing below its own first header.
      have below : ∀ x, x < a + 12 + b.size → m' x = m x := fun x low =>
        frame x fun inside => absurd inside.le (Nat.not_le.mpr low)
      refine ⟨m', rfl, stored.behind below stored' (new.trans old.symm), ?_⟩
      exact fun x outside => frame x fun inside => outside (.inr inside)

theorem Stored.kmallocFrom_none {size : UInt32} {fuel : ℕ} (stored : Stored m a blocks) (positive : 0 < a)
    (enough : blocks.length < fuel) (none : acquire 12 8 size.toNat a blocks = none) :
    kmallocFrom size fuel m (link a blocks) = some (0, m) := by
  induction blocks generalizing a fuel with
  | nil =>
    obtain ⟨fuel, rfl⟩ := Nat.exists_eq_add_one.mpr (Nat.zero_lt_of_lt enough)
    rfl
  | cons b rest ih =>
    obtain ⟨fuel, rfl⟩ := Nat.exists_eq_add_one.mpr (Nat.zero_lt_of_lt enough)
    have nonnull : a ≠ 0 := by omega
    rw [acquire] at none
    split at none
    next => cases none
    next bad =>
      have later := ih stored.2.2.2 (by omega) (Nat.lt_of_succ_lt_succ enough)
        (Option.map_eq_none_iff.mp none)
      rw [link, kmallocFrom, if_neg nonnull, if_neg fun test => bad ((stored.fits_iff size).mp test),
        stored.blockNext_eq, later]

end Giving

section Merging

/-- Taking the next block in: the header of `a` grows, and the other goes stale. -/
theorem Stored.absorb {c : Block} (stored : Stored m a (b :: c :: rest)) (positive : 0 < a)
    (bound : a + 12 + b.size + 12 + c.size + span 12 rest ≤ 2 ^ 32) :
    let m1 := storeWord m a (blockSize m a + (12 + blockSize m (blockNext m a))).toNat
    Stored (storeWord m1 (a + 8) (blockNext m1 (blockNext m1 a))) a (⟨b.size + 12 + c.size, b.free⟩ :: rest) ∧
      ∀ x, ¬ (a ≤ x ∧ x < a + 12) → storeWord m1 (a + 8) (blockNext m1 (blockNext m1 a)) x = m x := by
  intro m1
  have first := stored.blockSize_toNat
  obtain ⟨size, free, next, later⟩ := stored
  have pointer : blockNext m a = a + 12 + b.size := next
  have sum : (blockSize m a + (12 + blockSize m (blockNext m a))).toNat = b.size + 12 + c.size := by
    rw [UInt32.toNat_add, UInt32.toNat_add, pointer, later.blockSize_toNat, first]
    change (b.size + (12 + c.size) % 2 ^ 32) % 2 ^ 32 = _
    omega
  have stays : blockNext m1 a = a + 12 + b.size := (wordAt_storeWord_other (by omega)).trans next
  have far : blockNext m1 (a + 12 + b.size) = link (a + 12 + b.size + 12 + c.size) rest :=
    (wordAt_storeWord_other (by omega)).trans later.blockNext_eq
  have ends : a + 12 + (b.size + 12 + c.size) = a + 12 + b.size + 12 + c.size := by omega
  have small : link (a + 12 + b.size + 12 + c.size) rest < 2 ^ 32 := by
    cases rest with
    | nil => exact Nat.two_pow_pos 32
    | cons d tail =>
      simp only [span] at bound
      simp only [link]
      omega
  rw [stays, far]
  refine ⟨⟨?_, ?_, ?_, ?_⟩, fun x outside => ?_⟩
  · simp (disch := omega) only [m1, sum, wordAt_storeWord_other, wordAt_storeWord_small]
  · simp (disch := omega) only [m1, sum, wordAt_storeWord_other]
    exact free
  · rw [wordAt_storeWord_small small, ends]
  · simp only [ends]
    apply later.2.2.2.congr
    intro x inside
    have := inside.le
    simp (disch := omega) only [m1, storeWord_outside]
  · simp (disch := omega) only [m1, storeWord_outside]

private theorem mergeFrom_link (b : Block) (rest : List Block) : link a (mergeFrom 12 b rest) = a := by
  induction rest generalizing b with
  | nil => rfl
  | cons c rest ih =>
    rw [mergeFrom]
    split
    next => exact ih _
    next => rfl

/-- The loop of `coalesce` joins the blocks as `mergeFrom` does. -/
theorem Stored.coalesceFrom_eq {fuel : ℕ} (stored : Stored m a (b :: rest)) (positive : 0 < a)
    (bound : a + 12 + b.size + span 12 rest ≤ 2 ^ 32) (enough : rest.length < fuel) :
    ∃ m', coalesceFrom fuel m a = some m' ∧ Stored m' a (mergeFrom 12 b rest) ∧
      ∀ x, ¬ InHeader a (b :: rest) x → m' x = m x := by
  induction rest generalizing a b m fuel with
  | nil =>
    obtain ⟨fuel, rfl⟩ := Nat.exists_eq_add_one.mpr (Nat.zero_lt_of_lt enough)
    have last : blockNext m a = 0 := stored.blockNext_eq
    exact ⟨m, by rw [coalesceFrom, if_pos (.inr last)], stored, fun _ _ => rfl⟩
  | cons c rest ih =>
    obtain ⟨fuel, rfl⟩ := Nat.exists_eq_add_one.mpr (Nat.zero_lt_of_lt enough)
    simp only [span] at bound
    have next : blockNext m a = a + 12 + b.size := stored.blockNext_eq
    have more : ¬ (a = 0 ∨ blockNext m a = 0) := by omega
    have both : (blockFree m a = true ∧ blockFree m (blockNext m a) = true) ↔ b.free = true ∧ c.free = true := by
      rw [next, stored.blockFree_eq, stored.2.2.2.blockFree_eq]
    rw [coalesceFrom, if_neg more, mergeFrom]
    split
    next joined =>
      obtain ⟨free, free'⟩ := both.mp joined
      obtain ⟨grown, frame⟩ := stored.absorb positive (by omega)
      rw [free] at grown
      have room : a + 12 + (b.size + 12 + c.size) + span 12 rest ≤ 2 ^ 32 := by omega
      obtain ⟨m', ran, merged, frame'⟩ := ih grown positive room (Nat.lt_of_succ_lt_succ enough)
      rw [if_pos ⟨free, free'⟩]
      refine ⟨m', ran, merged, fun x outside => ?_⟩
      have ends : a + 12 + (b.size + 12 + c.size) = a + 12 + b.size + 12 + c.size := by omega
      rw [frame' x, frame x fun here => outside (.inl here)]
      rintro (here | inside)
      · exact outside (.inl here)
      · rw [ends] at inside
        exact outside (.inr (.inr inside))
    next apart =>
      obtain ⟨m', ran, merged, frame⟩ := ih stored.2.2.2 (by omega) (by omega) (Nat.lt_of_succ_lt_succ enough)
      rw [if_neg fun free => apart (both.mpr free), next]
      have below : ∀ x, x < a + 12 + b.size → m' x = m x := fun x low =>
        frame x fun inside => absurd inside.le (Nat.not_le.mpr low)
      refine ⟨m', ran, stored.behind below merged (mergeFrom_link c rest), ?_⟩
      exact fun x outside => frame x fun inside => outside (.inr inside)

theorem Stored.released (stored : Stored m a blocks) (member : (p, n) ∈ taken 12 a blocks) :
    Stored (storeWord m (p - 12 + 4) 1) a (release 12 p a blocks) ∧
      (∀ x, ¬ InHeader a blocks x → storeWord m (p - 12 + 4) 1 x = m x) ∧
      ∀ x, InHeader a (release 12 p a blocks) x ↔ InHeader a blocks x := by
  induction blocks generalizing a with
  | nil => cases member
  | cons b rest ih =>
    rw [release]
    split
    next here =>
      have place : p - 12 + 4 = a + 4 := by omega
      rw [place]
      refine ⟨stored.mark true, fun x outside => storeWord_outside ?_, fun x => Iff.rfl⟩
      have : ¬ (a ≤ x ∧ x < a + 12) := fun here => outside (.inl here)
      omega
    next other =>
      rw [taken] at member
      have later : (p, n) ∈ taken 12 (a + 12 + b.size) rest := by
        apply (List.mem_append.mp member).resolve_left
        intro first
        split at first
        next => cases first
        next =>
          cases List.mem_singleton.mp first
          exact other rfl
      have above := (taken_inside later).1
      obtain ⟨marked, frame, same⟩ := ih stored.2.2.2 later
      have links : link (a + 12 + b.size) (release 12 p (a + 12 + b.size) rest) = link (a + 12 + b.size) rest := by
        cases rest with
        | nil => rfl
        | cons c tail =>
          rw [release]
          split <;> rfl
      have below : ∀ x, x < a + 12 + b.size → storeWord m (p - 12 + 4) 1 x = m x := fun x low =>
        storeWord_outside (by omega)
      refine ⟨stored.behind below marked links, ?_, fun x => or_congr_right (same x)⟩
      exact fun x outside => frame x fun inside => outside (.inr inside)

end Merging

section Listing

def headersOf : ℕ → List Block → List Header
  | _, [] => []
  | a, b :: rest => ⟨a, b.size, b.free⟩ :: headersOf (a + 12 + b.size) rest

theorem Stored.headersFrom_eq {fuel : ℕ} (stored : Stored m a blocks) (positive : 0 < a) (enough : blocks.length < fuel) :
    headersFrom m fuel (link a blocks) = some (headersOf a blocks) := by
  induction blocks generalizing a fuel with
  | nil =>
    obtain ⟨fuel, rfl⟩ := Nat.exists_eq_add_one.mpr (Nat.zero_lt_of_lt enough)
    rfl
  | cons b rest ih =>
    obtain ⟨fuel, rfl⟩ := Nat.exists_eq_add_one.mpr (Nat.zero_lt_of_lt enough)
    have nonnull : a ≠ 0 := by omega
    have later := ih stored.2.2.2 (by omega) (Nat.lt_of_succ_lt_succ enough)
    rw [link, headersFrom, if_neg nonnull, stored.blockNext_eq, later, stored.blockSize_toNat, stored.blockFree_eq]
    rfl

private theorem headersOf_head {h : Header} (first : h ∈ (headersOf a blocks).head?) :
    h.address = a ∧ ∃ c ∈ blocks.head?, h.free = c.free := by
  cases blocks with
  | nil => cases first
  | cons b rest =>
    cases first
    exact ⟨rfl, b, rfl, rfl⟩

theorem headersOf_tiles : (headersOf a blocks).IsChain fun b c => c.address = b.address + 12 + b.size := by
  induction blocks generalizing a with
  | nil => exact List.isChain_nil
  | cons b rest ih => exact List.isChain_cons.mpr ⟨fun h first => (headersOf_head first).1, ih⟩

theorem headersOf_separated (separated : Separated blocks) :
    (headersOf a blocks).IsChain fun b c => ¬ (b.free = true ∧ c.free = true) := by
  induction blocks generalizing a with
  | nil => exact List.isChain_nil
  | cons b rest ih =>
    obtain ⟨next, later⟩ := separated_cons.mp separated
    refine List.isChain_cons.mpr ⟨fun h first both => ?_, ih later⟩
    obtain ⟨_, c, head, same⟩ := headersOf_head first
    exact next c head ⟨both.1, same ▸ both.2⟩

theorem headersOf_inside {h : Header} (member : h ∈ headersOf a blocks) :
    a ≤ h.address ∧ h.address + 12 + h.size ≤ a + span 12 blocks := by
  induction blocks generalizing a with
  | nil => cases member
  | cons b rest ih =>
    rw [span]
    rcases List.mem_cons.mp member with rfl | later
    · simp only
      omega
    · have := ih later
      omega

theorem headersOf_pairwise : (headersOf a blocks).Pairwise fun b c => b.address + 12 + b.size ≤ c.address := by
  induction blocks generalizing a with
  | nil => exact List.Pairwise.nil
  | cons b rest ih => exact List.pairwise_cons.mpr ⟨fun h later => (headersOf_inside later).1, ih⟩

theorem headersOf_last {h : Header} (last : h ∈ (headersOf a blocks).getLast?) :
    h.address + 12 + h.size = a + span 12 blocks := by
  induction blocks generalizing a with
  | nil => cases last
  | cons b rest ih =>
    rw [span]
    cases rest with
    | nil =>
      obtain rfl : ⟨a, b.size, b.free⟩ = h := Option.some.inj last
      simp only [span]
      omega
    | cons c tail =>
      have last' : h ∈ (headersOf (a + 12 + b.size) (c :: tail)).getLast? := by
        simpa only [headersOf, List.getLast?_cons_cons] using last
      have := ih last'
      omega

theorem headersOf_taken : (p, n) ∈ taken 12 a blocks ↔
    ∃ h ∈ headersOf a blocks, h.free = false ∧ p = h.address + 12 ∧ n = h.size := by
  induction blocks generalizing a with
  | nil => simp [taken, headersOf]
  | cons b rest ih =>
    rw [taken, List.mem_append, ih, headersOf]
    simp only [List.mem_cons, exists_eq_or_imp]
    refine or_congr ?_ Iff.rfl
    cases b.free <;> simp

/-- A header shows the size and the flag of its block. -/
theorem headersOf_forall {P : ℕ → Bool → Prop} :
    (∀ h ∈ headersOf a blocks, P h.size h.free) ↔ ∀ b ∈ blocks, P b.size b.free := by
  induction blocks generalizing a with
  | nil => exact iff_of_true (fun _ member => absurd member List.not_mem_nil) fun _ member => absurd member List.not_mem_nil
  | cons b rest ih => rw [headersOf, List.forall_mem_cons, List.forall_mem_cons, ih]

def bytesOf (free : Bool) (blocks : List Block) : ℕ :=
  (blocks.map fun b => if b.free = free then b.size else 0).sum

theorem span_eq (blocks : List Block) : span 12 blocks = bytesOf false blocks + bytesOf true blocks + 12 * blocks.length := by
  induction blocks with
  | nil => rfl
  | cons b rest ih =>
    rw [span, ih]
    simp only [bytesOf, List.map_cons, List.sum_cons, List.length_cons]
    cases b.free <;> simp <;> omega

/-- `heap_stats` adds up the sizes without wrapping. -/
theorem Stored.statsFrom_eq {fuel : ℕ} (stored : Stored m a blocks) (positive : 0 < a) (enough : blocks.length < fuel)
    (used available count : UInt32)
    (small : used.toNat + available.toNat + count.toNat + span 12 blocks < 2 ^ 32) :
    ∃ used' available' count', statsFrom m fuel (link a blocks) used available count = some (used', available', count') ∧
      used'.toNat = used.toNat + bytesOf false blocks ∧ available'.toNat = available.toNat + bytesOf true blocks ∧
      count'.toNat = count.toNat + blocks.length := by
  induction blocks generalizing a fuel used available count with
  | nil =>
    obtain ⟨fuel, rfl⟩ := Nat.exists_eq_add_one.mpr (Nat.zero_lt_of_lt enough)
    exact ⟨used, available, count, rfl, rfl, rfl, rfl⟩
  | cons b rest ih =>
    obtain ⟨fuel, rfl⟩ := Nat.exists_eq_add_one.mpr (Nat.zero_lt_of_lt enough)
    have nonnull : a ≠ 0 := by omega
    have size := stored.blockSize_toNat
    simp only [span] at small
    have more : (count + 1).toNat = count.toNat + 1 := by
      rw [UInt32.toNat_add]
      change (count.toNat + 1) % 2 ^ 32 = _
      omega
    rw [link, statsFrom, if_neg nonnull, stored.blockFree_eq, stored.blockNext_eq]
    cases free : b.free with
    | true =>
      have grown : (available + blockSize m a).toNat = available.toNat + b.size := by
        rw [UInt32.toNat_add, size]
        omega
      obtain ⟨used', available', count', ran, u, f, n⟩ :=
        ih stored.2.2.2 (by omega) (Nat.lt_of_succ_lt_succ enough) used (available + blockSize m a) (count + 1) (by omega)
      refine ⟨used', available', count', by rw [if_pos rfl]; exact ran, ?_⟩
      simp only [bytesOf, List.map_cons, List.sum_cons, List.length_cons, free] at u f n ⊢
      simp
      omega
    | false =>
      have grown : (used + blockSize m a).toNat = used.toNat + b.size := by
        rw [UInt32.toNat_add, size]
        omega
      obtain ⟨used', available', count', ran, u, f, n⟩ :=
        ih stored.2.2.2 (by omega) (Nat.lt_of_succ_lt_succ enough) (used + blockSize m a) available (count + 1) (by omega)
      refine ⟨used', available', count', by rw [if_neg Bool.false_ne_true]; exact ran, ?_⟩
      simp only [bytesOf, List.map_cons, List.sum_cons, List.length_cons, free] at u f n ⊢
      simp
      omega

end Listing

end Seaweed
