import Seaweed.Proofs.FishSteps

/-! The tree invariant over whole runs: every change an operation may make keeps it,
so no sequence of calls breaks it or leaves the objects of `fish.c`. -/

namespace Seaweed
open Library

variable {s after : Fish}

/-- A size no larger than the data, and none for a directory. -/
def Node.Measured (n : Node) : Prop := n.size.toNat ≤ fishFileMax ∧ (n.isDir ≠ 0 → n.size = 0)

/-- What the operations maintain: a sound tree with real sizes in every slot, the
unused ones included. -/
structure Valid (s : Fish) : Prop extends Sound s where
  measured : ∀ i, (s.nodes i).Measured

private theorem Sound.of_rooted (rooted : s.tree.Rooted 0)
    (root : s.Used 0 ∧ s.Dir 0 ∧ (s.nodes 0).parent = -1)
    (named : ∀ i, i ≠ 0 → s.Used i → 0 ∈ (s.nodes i).name.bytes ∧ validName (s.nodes i).called = true)
    (linked : ∀ i, i ≠ 0 → s.Used i → ∃ d, s.Under i d ∧ s.Used d ∧ s.Dir d)
    (sized : ∀ i, s.Used i → (s.nodes i).size.toNat ≤ fishFileMax)
    (cwd : ∃ d, s.current = index d ∧ s.Used d ∧ s.Dir d) : Sound s := by
  refine ⟨root, named, linked, ?_, ?_, sized, cwd⟩
  · intro i used
    rw [← s.tree_up]
    exact rooted.reach i used
  · intro i j used used' parents names
    by_cases top : i = 0
    · subst top
      by_cases top' : j = 0
      · exact top'.symm
      · obtain ⟨d, under, _⟩ := linked j top' used'
        exact absurd (under.symm.trans (parents.symm.trans root.2.2)) (index_ne_top d)
    · obtain ⟨d, under, _⟩ := linked i top used
      exact rooted.unique i j d used used' (Fish.tree_parent.mpr under)
        (Fish.tree_parent.mpr (parents.symm.trans under)) names

section Init

theorem fishInit_root : fishInit.nodes 0 = Node.root := by simp [fishInit]

theorem fishInit_inner {i : Fin fishMaxNodes} (inner : i ≠ 0) : fishInit.nodes i = Node.zero := by simp [fishInit, inner]

theorem fishInit_used {i : Fin fishMaxNodes} : fishInit.Used i ↔ i = 0 := by
  constructor
  · intro used
    by_contra inner
    exact used (by rw [fishInit_inner inner]; rfl)
  · rintro rfl
    rw [Fish.Used, fishInit_root]
    decide

theorem fishInit_valid : Valid fishInit := by
  have root : fishInit.Used 0 ∧ fishInit.Dir 0 ∧ (fishInit.nodes 0).parent = -1 := by
    rw [Fish.Used, Fish.Dir, fishInit_root]
    decide
  have size : ∀ i, (fishInit.nodes i).size = 0 := by
    intro i
    by_cases inner : i = 0
    · rw [inner, fishInit_root]
      rfl
    · rw [fishInit_inner inner]
      rfl
  refine ⟨⟨root, ?_, ?_, ?_, ?_, ?_, ?_⟩, fun i => ⟨?_, fun _ => size i⟩⟩
  · exact fun i inner used => absurd (fishInit_used.mp used) inner
  · exact fun i inner used => absurd (fishInit_used.mp used) inner
  · intro i used
    rw [fishInit_used.mp used]
  · intro i j used used' _ _
    rw [fishInit_used.mp used, fishInit_used.mp used']
  · intro i _
    rw [size]
    decide
  · exact ⟨0, rfl, root.1, root.2.1⟩
  · rw [size]
    decide

end Init

section Changes

variable {d i : Fin fishMaxNodes} {node : Node}

theorem Fish.set_used {j : Fin fishMaxNodes} (other : j ≠ i) : (s.set i node).Used j ↔ s.Used j := by
  rw [Fish.Used, Fish.set_other other, Fish.Used]

theorem Fish.set_dir {j : Fin fishMaxNodes} (other : j ≠ i) : (s.set i node).Dir j ↔ s.Dir j := by
  rw [Fish.Dir, Fish.set_other other, Fish.Dir]

theorem Fish.set_under {j e : Fin fishMaxNodes} (other : j ≠ i) :
    (s.set i node).Under j e ↔ s.Under j e := by
  rw [Fish.Under, Fish.set_other other, Fish.Under]

/-- The node `i` as a leaf under `d` of the tree with it, when the tree without it has
the other nodes unchanged. -/
theorem Sound.leaf {before : Fish} (sound : Sound before) (same : ∀ j, j ≠ i → s.nodes j = before.nodes j)
    (fresh : ¬ before.Used i) (used : s.Used i) (above : before.Used d) (under : s.Under i d) :
    before.tree.Leaf s.tree i d where
  larger := by
    have other : ∀ j, before.Used j → j ≠ i := fun j live same => fresh (same ▸ live)
    refine ⟨fun j live => ?_, fun j live => ?_, fun j live => ?_⟩
    · change (s.nodes j).used ≠ 0
      rw [same j (other j live)]
      exact live
    · simp only [Fish.tree, same j (other j live)]
    · simp only [Fish.tree, same j (other j live)]
  fresh := fresh
  only := by
    intro j
    by_cases here : j = i
    · subst here
      exact ⟨fun _ => .inr rfl, fun _ => used⟩
    · change (s.nodes j).used ≠ 0 ↔ before.Used j ∨ j = i
      rw [same j here]
      exact ⟨.inl, fun live => live.resolve_right here⟩
  parent := Fish.tree_parent.mpr under
  childless := by
    intro j live up
    have below := Fish.tree_parent.mp up
    by_cases here : j = i
    · subst here
      exact fresh (under.unique below ▸ above)
    · -- An old node hangs under an old node, and `i` was not one.
      have live' : before.Used j := by
        change (before.nodes j).used ≠ 0
        rw [← same j here]
        exact live
      have below' : before.Under j i := by rwa [Fish.Under, ← same j here]
      exact fresh (sound.rooted.linked j i live' (Fish.tree_parent.mpr below'))

theorem Fish.made_used {field : Buffer fishNameMax} {flag : Int32} :
    (s.set i ((s.nodes i).made field flag (index d))).Used i ∧
      (s.set i ((s.nodes i).made field flag (index d))).Under i d := by
  rw [Fish.Used, Fish.Under, Fish.set_same]
  exact ⟨(by decide : (1 : Int32) ≠ 0), rfl⟩

theorem Sound.made_leaf (sound : Sound s) (field : Buffer fishNameMax) (flag : Int32) (fresh : ¬ s.Used i)
    (above : s.Used d) : s.tree.Leaf (s.set i ((s.nodes i).made field flag (index d))).tree i d :=
  sound.leaf (fun _ => Fish.set_other) fresh Fish.made_used.1 above Fish.made_used.2

theorem Fish.unused : ¬ (s.set i { s.nodes i with used := 0 }).Used i := by
  rw [Fish.Used, Fish.set_same]
  exact fun nonzero => nonzero rfl

theorem Fish.removed_used {j : Fin fishMaxNodes} (live : (s.set i { s.nodes i with used := 0 }).Used j) :
    j ≠ i ∧ s.Used j := by
  have other : j ≠ i := by
    rintro rfl
    exact Fish.unused live
  exact ⟨other, (Fish.set_used other).mp live⟩

theorem Fish.removed_leaf (used : s.Used i) (under : s.Under i d) (empty : ∀ j, s.Used j → ¬ s.Under j i) :
    (s.set i { s.nodes i with used := 0 }).tree.Leaf s.tree i d where
  larger := by
    refine ⟨fun j live => (Fish.removed_used live).2, fun j live => ?_, fun j live => ?_⟩
    · simp only [Fish.tree, Fish.set_other (Fish.removed_used live).1]
    · simp only [Fish.tree, Fish.set_other (Fish.removed_used live).1]
  fresh := Fish.unused
  only := by
    intro j
    by_cases same : j = i
    · subst same
      exact ⟨fun _ => .inr rfl, fun _ => used⟩
    · exact ⟨fun live => .inl ((Fish.set_used same).mpr live),
        fun live => (Fish.set_used same).mp (live.resolve_right same)⟩
  parent := Fish.tree_parent.mpr under
  childless := fun j live up => empty j live (Fish.tree_parent.mp up)

theorem Sound.add (sound : Sound s) {name : CString} {field : Buffer fishNameMax} {flag : Int32}
    (here : s.current = index d) (inner : i ≠ 0) (fresh : ¬ s.Used i) (valid : validName name = true)
    (missing : s.child d name = none) (terminated : 0 ∈ field.bytes) (called : CString.ofBytes field.bytes = name) :
    Sound (s.set i ((s.nodes i).made field flag (index d))) := by
  obtain ⟨e, same, used, dir⟩ := sound.cwd
  obtain rfl := index_injective (here.symm.trans same)
  have other : ∀ j, s.Used j → j ≠ i := fun j live same => fresh (same ▸ live)
  generalize made : (s.nodes i).made field flag (index d) = node
  have new : (s.set i node).Used i ∧ (s.set i node).Under i d ∧ node.called = name ∧ node.size = 0 := by
    subst made
    exact ⟨Fish.made_used.1, Fish.made_used.2, called, rfl⟩
  have leaf : s.tree.Leaf (s.set i node).tree i d := made ▸ sound.made_leaf field flag fresh used
  have rooted : (s.set i node).tree.Rooted 0 := by
    apply leaf.add sound.rooted used
    intro j live up same
    refine Fish.child_none missing j ⟨live, Fish.tree_parent.mp up, ?_⟩
    have same' : (s.nodes j).called = ((s.set i node).nodes i).called := same
    rw [same', Fish.set_same, new.2.2.1]
  apply Sound.of_rooted rooted
  · rw [Fish.set_used (Ne.symm inner), Fish.set_dir (Ne.symm inner), Fish.set_other (Ne.symm inner)]
    exact sound.root
  · intro j inner' live
    by_cases at_new : j = i
    · subst at_new
      rw [Fish.set_same]
      exact ⟨by rw [← made]; exact terminated, by rw [new.2.2.1]; exact valid⟩
    · rw [Fish.set_other at_new]
      exact sound.named j inner' ((Fish.set_used at_new).mp live)
  · intro j inner' live
    by_cases at_new : j = i
    · subst at_new
      exact ⟨d, new.2.1, (Fish.set_used (other d used)).mpr used, (Fish.set_dir (other d used)).mpr dir⟩
    · obtain ⟨e, under, live', dir'⟩ := sound.linked j inner' ((Fish.set_used at_new).mp live)
      exact ⟨e, (Fish.set_under at_new).mpr under, (Fish.set_used (other e live')).mpr live',
        (Fish.set_dir (other e live')).mpr dir'⟩
  · intro j live
    by_cases at_new : j = i
    · subst at_new
      rw [Fish.set_same, new.2.2.2]
      decide
    · rw [Fish.set_other at_new]
      exact sound.sized j ((Fish.set_used at_new).mp live)
  · exact ⟨d, here, (Fish.set_used (other d used)).mpr used, (Fish.set_dir (other d used)).mpr dir⟩

/-- The current directory is not its own parent, so the node removed from it is another
one; and the removed node is nobody's parent. -/
theorem Sound.remove (sound : Sound s) (here : s.current = index d) (used : s.Used i) (under : s.Under i d)
    (empty : ∀ j, s.Used j → ¬ s.Under j i) : Sound (s.set i { s.nodes i with used := 0 }) := by
  have inner := sound.inner under
  obtain ⟨e, above, live, dir, apart⟩ := sound.above inner used
  obtain rfl := above.unique under
  have kept : ∀ {j}, (s.set i { s.nodes i with used := 0 }).Used j → j ≠ i ∧ s.Used j := Fish.removed_used
  have leaf := Fish.removed_leaf used under empty
  apply Sound.of_rooted (leaf.cut sound.rooted (Ne.symm inner))
  · rw [Fish.set_used (Ne.symm inner), Fish.set_dir (Ne.symm inner), Fish.set_other (Ne.symm inner)]
    exact sound.root
  · intro j inner' live
    rw [Fish.set_other (kept live).1]
    exact sound.named j inner' (kept live).2
  · intro j inner' live
    obtain ⟨f, below, live', dir'⟩ := sound.linked j inner' (kept live).2
    have other : f ≠ i := by
      rintro rfl
      exact empty j (kept live).2 below
    exact ⟨f, (Fish.set_under (kept live).1).mpr below, (Fish.set_used other).mpr live', (Fish.set_dir other).mpr dir'⟩
  · intro j live
    rw [Fish.set_other (kept live).1]
    exact sound.sized j (kept live).2
  · exact ⟨e, here, (Fish.set_used apart).mpr live, (Fish.set_dir apart).mpr dir⟩

theorem Sound.move (sound : Sound s) (used : s.Used d) (dir : s.Dir d) :
    Sound { s with current := index d } :=
  ⟨sound.root, sound.named, sound.linked, sound.reach, sound.unique, sound.sized, d, rfl, used, dir⟩

section Filling

variable (s i) (data : Buffer fishFileMax) (size : UInt32)

theorem Fish.filled_same (j : Fin fishMaxNodes) :
    ((s.set i { s.nodes i with data := data, size := size }).nodes j).used = (s.nodes j).used ∧
      ((s.set i { s.nodes i with data := data, size := size }).nodes j).isDir = (s.nodes j).isDir ∧
      ((s.set i { s.nodes i with data := data, size := size }).nodes j).parent = (s.nodes j).parent ∧
      ((s.set i { s.nodes i with data := data, size := size }).nodes j).name = (s.nodes j).name := by
  by_cases here : j = i
  · subst here
    rw [Fish.set_same]
    exact ⟨rfl, rfl, rfl, rfl⟩
  · rw [Fish.set_other here]
    exact ⟨rfl, rfl, rfl, rfl⟩

theorem Fish.filled_tree : (s.set i { s.nodes i with data := data, size := size }).tree = s.tree := by
  have same := s.filled_same i data size
  have used : ∀ j, (s.set i { s.nodes i with data := data, size := size }).Used j = s.Used j := fun j => by
    simp only [Fish.Used, (same j).1]
  have called : ∀ j, ((s.set i { s.nodes i with data := data, size := size }).nodes j).called =
      (s.nodes j).called := fun j => by
    simp only [Node.called, (same j).2.2.2]
  simp only [Fish.tree, called, (same _).2.2.1, funext used]

end Filling

theorem Sound.fill (sound : Sound s) {data : Buffer fishFileMax} {size : UInt32}
    (short : size.toNat ≤ fishFileMax) : Sound (s.set i { s.nodes i with data := data, size := size }) := by
  have same := s.filled_same i data size
  have tree := s.filled_tree i data size
  generalize filled : { s.nodes i with data := data, size := size } = node at same tree ⊢
  have used : ∀ j, (s.set i node).Used j = s.Used j := fun j => by simp only [Fish.Used, (same j).1]
  have dir : ∀ j, (s.set i node).Dir j = s.Dir j := fun j => by simp only [Fish.Dir, (same j).2.1]
  have under : ∀ j e, (s.set i node).Under j e = s.Under j e := fun j e => by
    simp only [Fish.Under, (same j).2.2.1]
  apply Sound.of_rooted (by rw [tree]; exact sound.rooted)
  · rw [used, dir, (same 0).2.2.1]
    exact sound.root
  · intro j inner live
    rw [Node.called, (same j).2.2.2]
    exact sound.named j inner (used j ▸ live)
  · intro j inner live
    simp only [used, dir, under]
    exact sound.linked j inner (used j ▸ live)
  · intro j live
    by_cases here : j = i
    · subst here
      rw [Fish.set_same, ← filled]
      exact short
    · rw [Fish.set_other here]
      exact sound.sized j (used j ▸ live)
  · simpa only [Fish.set_current, used, dir] using sound.cwd

theorem Change.sound (change : Change s after) (sound : Sound s) : Sound after := by
  cases change with
  | init => exact fishInit_valid.toSound
  | move used dir => exact sound.move used dir
  | edit edit =>
    cases edit with
    | same => exact sound
    | add here inner fresh valid missing terminated called =>
      exact sound.add here inner fresh valid missing terminated called
    | remove here used under empty => exact sound.remove here used under empty
    | fill used file short => exact sound.fill short

theorem Change.valid (change : Change s after) (valid : Valid s) : Valid after := by
  have replaced : ∀ {i node}, Node.Measured node → ∀ j, ((s.set i node).nodes j).Measured := by
    intro i node measured j
    by_cases here : j = i
    · subst here
      rwa [Fish.set_same]
    · rw [Fish.set_other here]
      exact valid.measured j
  refine ⟨change.sound valid.toSound, ?_⟩
  cases change with
  | init => exact fishInit_valid.measured
  | move used dir => exact valid.measured
  | edit edit =>
    cases edit with
    | same => exact valid.measured
    | add => exact replaced ⟨Nat.zero_le _, fun _ => rfl⟩
    | remove => exact replaced (valid.measured _)
    | fill used file short => exact replaced ⟨short, fun dir => absurd dir file⟩

end Changes

end Seaweed
