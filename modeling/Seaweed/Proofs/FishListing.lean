import Seaweed.Library.Cursor
import Seaweed.Proofs.FishView

/-! A listing with `fish_first` and `fish_next` while the directory changes. The handle
is a cursor over the slots, so a listing is a scan whatever happens between its steps. -/

namespace Seaweed
open Library

variable {s : Fish} {d i : Fin fishMaxNodes} {handle : Handle}

/-- The loop over `fish_next`, for as many turns as there are: every tree it looked at
with the entry returned there, and the tree in which it answered 0. The calls
`between k` come before turn `k`. -/
def listFrom (between : ℕ → List FishCall) : ℕ → ℕ → Fish → Handle → Checked (List (Fish × Entry) × Option Fish)
  | 0, _, _, _ => .ok ([], none)
  | turns + 1, k, s, handle => do
    let s ← runCalls s (between k)
    let (entry, next) := fishNext s handle
    if next.val = 0 then .ok ([], some s)
    else do
      let (visits, last) ← listFrom between turns (k + 1) s next
      .ok (entry.toList.map (Prod.mk s) ++ visits, last)

/-- The slots that a listing shows: the children of the current directory. -/
def Fish.listed (s : Fish) (i : Fin fishMaxNodes) : Bool :=
  decide ((s.nodes i).used ≠ 0) && decide ((s.nodes i).parent = s.current)

theorem Fish.listed_iff (here : s.current = index d) : s.listed i = true ↔ s.Used i ∧ s.Under i d := by
  simp [Fish.listed, Fish.Used, Fish.Under, here]

def Entry.called (e : Entry) : CString := CString.ofBytes e.name.bytes

def Fish.entryAt (s : Fish) (i : Fin fishMaxNodes) : Entry :=
  ⟨i, (s.nodes i).name, (s.nodes i).isDir, (s.nodes i).size⟩

/-- The entry tells what the file tree has under that name in the current directory. -/
structure Entry.Tells (e : Entry) (s : Fish) : Prop where
  child : s.listed e.slot = true
  same : (s.nodes e.slot).called = e.called
  dir : e.isDir ≠ 0 → s.entries (e.called :: s.cwdPath) = some .dir ∧ e.size = 0
  file : e.isDir = 0 → ∃ bytes, s.entries (e.called :: s.cwdPath) = some (.file bytes) ∧ bytes.length = e.size.toNat

theorem fishNext_eq (s : Fish) (handle : Handle) :
    fishNext s handle = match firstFrom s.listed handle.val with
      | some i => (some (s.entryAt i), i.succ)
      | none => (none, 0) := by
  have same : ((List.finRange fishMaxNodes).find? fun i => decide (handle.val ≤ i.val) &&
      decide ((s.nodes i).used ≠ 0) && decide ((s.nodes i).parent = s.current)) = firstFrom s.listed handle.val := by
    simp only [firstFrom, Fish.listed, Bool.and_assoc]
  cases found : firstFrom s.listed handle.val with
  | some i => simp only [fishNext, same, found, Fish.entryAt]
  | none => simp only [fishNext, same, found]

theorem Valid.listed_tells (valid : Valid s) (listed : s.listed i = true) : (s.entryAt i).Tells s := by
  obtain ⟨d, here, used, _, path⟩ := valid.toSound.cwd_path
  obtain ⟨live, under⟩ := (Fish.listed_iff here).mp listed
  have inner : s.tree.Path 0 ((s.nodes i).called :: s.cwdPath) i := .child path live (Fish.tree_parent.mpr under)
  have held : s.entries ((s.nodes i).called :: s.cwdPath) = some (s.kind i) :=
    valid.toSound.entries_eq_some.mpr ⟨i, inner, rfl⟩
  refine ⟨listed, rfl, fun dir => ⟨held.trans (congrArg some (Fish.kind_dir dir)), (valid.measured i).2 dir⟩, fun file => ?_⟩
  have plain : ¬ s.Dir i := not_not_intro file
  have length : (s.nodes i).content.length = (s.nodes i).size.toNat := by
    rw [Node.content, List.length_take, Buffer.bytes_length, Nat.min_eq_left (valid.measured i).1]
  exact ⟨(s.nodes i).content, held.trans (congrArg some (Fish.kind_file plain)), length⟩

theorem Valid.run_edits (valid : Valid s) (calls : List FishCall) (edits : ∀ call ∈ calls, call.edits = true) :
    ∃ after, runCalls s calls = .ok after ∧ Valid after ∧ after.current = s.current := by
  apply @run_keeps s (fun t => Valid t ∧ t.current = s.current) (fun call => call.edits = true) _ calls edits ⟨valid, rfl⟩
  intro t call ⟨valid, same⟩ edits
  obtain ⟨after, done, edit⟩ := call.edit valid.toSound edits
  exact ⟨after, done, (Change.edit edit).valid valid, edit.current.trans same⟩

/-- The root is in no listing, so every turn but the last takes one of the 63 other
slots, ahead of those before it. -/
theorem Valid.listFrom_scan (valid : Valid s) (between : ℕ → List FishCall)
    (edits : ∀ k, ∀ call ∈ between k, call.edits = true) (turns k : ℕ) (handle : Handle)
    (enough : 64 < max handle.val 1 + turns) :
    ∃ visits last, listFrom between turns k s handle = .ok (visits, some last) ∧
      Scan handle.val (visits.map fun visit => (visit.1.listed, visit.2.slot)) last.listed ∧
      (∀ visit ∈ visits, visit.2.Tells visit.1 ∧ visit.1.current = s.current) ∧ last.current = s.current ∧
      ((∀ k, between k = []) → (∀ visit ∈ visits, visit.1 = s) ∧ last = s) := by
  induction turns generalizing s k handle with
  | zero =>
    have inside : handle.val ≤ 64 := Nat.le_of_lt_succ handle.isLt
    omega
  | succ turns ih =>
    obtain ⟨now, ran, valid', same⟩ := valid.run_edits (between k) (edits k)
    have quiet : (∀ k, between k = []) → now = s := by
      intro none
      rw [none k] at ran
      exact (Except.ok.inj ran).symm
    have turn := fishNext_eq now handle
    cases found : firstFrom now.listed handle.val with
    | none =>
      rw [found] at turn
      refine ⟨[], now, ?_, .done found, fun visit member => absurd member List.not_mem_nil, same, fun none => ⟨fun visit member => absurd member List.not_mem_nil, quiet none⟩⟩
      simp only [listFrom, ran, ok_bind, turn, Fin.val_zero, if_true]
    | some i =>
      rw [found] at turn
      obtain ⟨start, listed⟩ := firstFrom_some found
      obtain ⟨d, here, _⟩ := valid'.cwd
      have inner := valid'.toSound.inner ((Fish.listed_iff here).mp listed).2
      have positive : i.val ≠ 0 := fun zero => inner (Fin.ext zero)
      have more : i.succ.val ≠ 0 := fun zero => Fin.succ_ne_zero i (Fin.ext zero)
      have later : 64 < max i.succ.val 1 + turns := by
        rw [Fin.val_succ]
        omega
      obtain ⟨visits, last, done, scan, tells, kept, still⟩ := ih valid' (k + 1) i.succ later
      refine ⟨(now, now.entryAt i) :: visits, last, ?_, .found found scan, ?_, kept.trans same, fun none => ?_⟩
      · simp only [listFrom, ran, ok_bind, turn, if_neg more, done]
        rfl
      · refine List.forall_mem_cons.mpr ⟨⟨valid'.listed_tells listed, same⟩, fun visit member => ?_⟩
        exact ⟨(tells visit member).1, (tells visit member).2.trans same⟩
      · obtain ⟨alike, equal⟩ := still none
        exact ⟨List.forall_mem_cons.mpr ⟨quiet none, fun visit member => (alike visit member).trans (quiet none)⟩, equal.trans (quiet none)⟩

/-- A listing ends within 64 calls of `fish_next`, whatever edits come between. It tells
the truth at every step, shows no slot twice and misses none that stays in the
directory; without edits it shows the directory's children and nothing else. -/
theorem listing_visits_once (reached : Reached s) (between : ℕ → List FishCall)
    (edits : ∀ k, ∀ call ∈ between k, call.edits = true) :
    ∃ visits last, listFrom between 64 0 s fishFirst = .ok (visits, some last) ∧
      (visits.map fun visit => visit.2.slot).Nodup ∧
      (∀ visit ∈ visits, visit.2.Tells visit.1 ∧ visit.1.current = s.current) ∧
      (∀ i, (∀ visit ∈ visits, visit.1.listed i = true) → last.listed i = true →
        (visits.map fun visit => visit.2.slot).count i = 1) ∧
      ((∀ k, between k = []) → ∀ i, i ∈ visits.map (fun visit => visit.2.slot) ↔ s.listed i = true) := by
  obtain ⟨visits, last, done, scan, tells, _, still⟩ :=
    reached.valid.listFrom_scan between edits 64 0 fishFirst (by decide)
  have slots : (visits.map fun visit => (visit.1.listed, visit.2.slot)).map Prod.snd = visits.map fun visit => visit.2.slot :=
    List.map_map
  have once := scan.nodup
  have misses : ∀ i, (∀ visit ∈ visits, visit.1.listed i = true) → last.listed i = true →
      i ∈ visits.map fun visit => visit.2.slot := by
    intro i always atEnd
    rw [← slots]
    exact scan.complete (Nat.zero_le _) (List.forall_mem_map.mpr always) atEnd
  rw [slots] at once
  refine ⟨visits, last, done, once, tells, fun i always atEnd => ?_, fun none i => ⟨fun member => ?_, fun listed => ?_⟩⟩
  · exact List.count_eq_one_of_mem once (misses i always atEnd)
  · obtain ⟨visit, inside, rfl⟩ := List.mem_map.mp member
    rw [← (still none).1 visit inside]
    exact (tells visit inside).1.child
  · refine misses i (fun visit inside => ?_) ?_
    · rw [(still none).1 visit inside]
      exact listed
    · rw [(still none).2]
      exact listed

theorem listing_visits_once_of_busy :
    ∃ visits last, listFrom (fun k => if k = 0 then [.mkdir ⟨[97], by decide⟩] else [.create ⟨[98], by decide⟩, .remove ⟨[97], by decide⟩])
      64 0 fishInit fishFirst = .ok (visits, some last) ∧ (visits.map fun visit => visit.2.slot).Nodup := by
  have edits : ∀ k : ℕ, ∀ call ∈ (if k = 0 then [FishCall.mkdir ⟨[97], by decide⟩]
      else [.create ⟨[98], by decide⟩, .remove ⟨[97], by decide⟩]), call.edits = true := by
    intro k
    split <;> simp [FishCall.edits]
  obtain ⟨visits, last, done, once, _⟩ := listing_visits_once ⟨[], rfl⟩ _ edits
  exact ⟨visits, last, done, once⟩

end Seaweed
