import Mathlib

/-! Trees stored as parent links. Every live node names its parent and carries a
label; siblings have different labels, so the labels on the way up to the root
identify a node. Nothing here depends on how the nodes are stored. -/

namespace Library

structure ParentTree (ι α : Type*) where
  live : ι → Prop
  parent : ι → Option ι
  label : ι → α

namespace ParentTree

variable {ι α : Type*} {t u : ParentTree ι α} {root i j d x : ι} {p q : List α}

def Up (t : ParentTree ι α) (i d : ι) : Prop := t.parent i = some d

/-- The labels from a node, innermost first, up to and without the root. -/
inductive Path (t : ParentTree ι α) (root : ι) : List α → ι → Prop where
  | root : Path t root [] root
  | child {p : List α} {d i : ι} (above : Path t root p d) (live : t.live i) (parent : t.parent i = some d) :
      Path t root (t.label i :: p) i

structure Rooted (t : ParentTree ι α) (root : ι) : Prop where
  live_root : t.live root
  top : t.parent root = none
  linked : ∀ i d, t.live i → t.parent i = some d → t.live d
  reach : ∀ i, t.live i → Relation.ReflTransGen t.Up i root
  unique : ∀ i j d, t.live i → t.live j → t.parent i = some d → t.parent j = some d →
    t.label i = t.label j → i = j

theorem Path.live (rooted : t.Rooted root) (path : t.Path root p i) : t.live i := by
  cases path with
  | root => exact rooted.live_root
  | child above live parent => exact live

theorem Rooted.path_exists (rooted : t.Rooted root) (live : t.live i) : ∃ p, t.Path root p i := by
  have climb := rooted.reach i live
  induction climb using Relation.ReflTransGen.head_induction_on with
  | refl => exact ⟨[], .root⟩
  | head up rest ih =>
    obtain ⟨p, above⟩ := ih (rooted.linked _ _ live up)
    exact ⟨_, .child above live up⟩

theorem Path.parent_cases (rooted : t.Rooted root) (path : t.Path root p i) (up : t.parent i = some d) :
    ∃ q, p = t.label i :: q ∧ t.Path root q d := by
  cases path with
  | root => simp [rooted.top] at up
  | child above live parent =>
    obtain rfl : _ = d := Option.some.inj (parent.symm.trans up)
    exact ⟨_, rfl, above⟩

theorem Path.root_eq_nil (rooted : t.Rooted root) (path : t.Path root p root) : p = [] := by
  cases path with
  | root => rfl
  | child above live parent => simp [rooted.top] at parent

/-- Climbing is deterministic, so a node has one path. -/
theorem Path.unique (rooted : t.Rooted root) (first : t.Path root p i) (second : t.Path root q i) : p = q := by
  induction first generalizing q with
  | root => exact (second.root_eq_nil rooted).symm
  | child above live parent ih =>
    obtain ⟨rest, rfl, below⟩ := second.parent_cases rooted parent
    rw [ih below]

/-- Siblings differ in their labels, so a path has one node. -/
theorem Path.inj (rooted : t.Rooted root) (first : t.Path root p i) (second : t.Path root p j) : i = j := by
  induction first generalizing j with
  | root => cases second with | root => rfl
  | @child p d i above live parent ih =>
    generalize same : t.label i :: p = labels at second
    cases second with
    | root => cases same
    | @child p' d' j above' live' parent' =>
      obtain ⟨label, rfl⟩ := List.cons.inj same
      obtain rfl := ih above'
      exact rooted.unique i j _ live live' parent parent' label

theorem Path.suffix (path : t.Path root p i) (k : ℕ) : ∃ j, t.Path root (p.drop k) j := by
  induction path generalizing k with
  | root => exact ⟨root, by simpa using Path.root⟩
  | child above live parent ih =>
    cases k with
    | zero => exact ⟨_, .child above live parent⟩
    | succ k => exact ih k

/-- The nodes on the way up are all different, so a path is shorter than the number
of nodes there are. -/
theorem Path.length_lt_card [Fintype ι] (rooted : t.Rooted root) (path : t.Path root p i) :
    p.length < Fintype.card ι := by
  choose node onPath using path.suffix
  have different : Function.Injective fun k : Fin (p.length + 1) => node k := by
    intro k l same
    change node k = node l at same
    have equal := congrArg List.length ((onPath k).unique rooted (same ▸ onPath l))
    simp only [List.length_drop] at equal
    ext
    omega
  simpa using Fintype.card_le_of_injective _ different

theorem Rooted.acyclic (rooted : t.Rooted root) (live : t.live i) : ¬ Relation.TransGen t.Up i i := by
  have shorter : ∀ {i d p q}, Relation.TransGen t.Up i d → t.Path root p i → t.Path root q d →
      q.length < p.length := by
    intro i d p q up path above
    induction up using Relation.TransGen.head_induction_on generalizing p with
    | single up =>
      obtain ⟨rest, rfl, higher⟩ := path.parent_cases rooted up
      simp [higher.unique rooted above]
    | head up rest ih =>
      obtain ⟨labels, rfl, higher⟩ := path.parent_cases rooted up
      have := ih higher
      simp only [List.length_cons]
      omega
  obtain ⟨p, path⟩ := rooted.path_exists live
  exact fun cycle => Nat.lt_irrefl _ (shorter cycle path path)

theorem Rooted.parent_ne (rooted : t.Rooted root) (live : t.live i) (up : t.parent i = some d) : d ≠ i := by
  rintro rfl
  exact rooted.acyclic live (.single up)

/-- `u` has at least the live nodes of `t`, linked and labelled as in `t`. -/
structure Extends (t u : ParentTree ι α) : Prop where
  live : ∀ i, t.live i → u.live i
  parent : ∀ i, t.live i → u.parent i = t.parent i
  label : ∀ i, t.live i → u.label i = t.label i

theorem Path.extend (larger : Extends t u) (path : t.Path root p i) : u.Path root p i := by
  induction path with
  | root => exact .root
  | @child p d i above live parent ih =>
    rw [← larger.label i live]
    exact .child ih (larger.live i live) ((larger.parent i live).trans parent)

/-- The two trees differ in the leaf `x`, which hangs under `d` in the larger one. -/
structure Leaf (t u : ParentTree ι α) (x d : ι) : Prop where
  larger : Extends t u
  fresh : ¬ t.live x
  only : ∀ i, u.live i ↔ t.live i ∨ i = x
  parent : u.parent x = some d
  childless : ∀ i, u.live i → u.parent i ≠ some x

theorem Leaf.live (leaf : Leaf t u x d) : u.live x := (leaf.only x).mpr (.inr rfl)

theorem Leaf.up (leaf : Leaf t u x d) (live : t.live i) (climb : Relation.ReflTransGen t.Up i j)
    (linked : ∀ i d, t.live i → t.parent i = some d → t.live d) : Relation.ReflTransGen u.Up i j := by
  induction climb using Relation.ReflTransGen.head_induction_on with
  | refl => exact .refl
  | head up rest ih =>
    exact .head ((leaf.larger.parent _ live).trans up) (ih (linked _ _ live up))

theorem Leaf.add (leaf : Leaf t u x d) (rooted : t.Rooted root) (above : t.live d)
    (named : ∀ i, t.live i → t.parent i = some d → t.label i ≠ u.label x) : u.Rooted root := by
  have fresh_root : root ≠ x := fun same => leaf.fresh (same ▸ rooted.live_root)
  refine ⟨leaf.larger.live _ rooted.live_root, ?_, ?_, ?_, ?_⟩
  · exact (leaf.larger.parent _ rooted.live_root).trans rooted.top
  · intro i e live up
    rcases (leaf.only i).mp live with old | rfl
    · exact leaf.larger.live _ (rooted.linked i e old ((leaf.larger.parent i old).symm.trans up))
    · obtain rfl : d = e := Option.some.inj (leaf.parent.symm.trans up)
      exact leaf.larger.live _ above
  · intro i live
    rcases (leaf.only i).mp live with old | rfl
    · exact leaf.up old (rooted.reach i old) rooted.linked
    · exact .head leaf.parent (leaf.up above (rooted.reach d above) rooted.linked)
  · -- Two old siblings differ as before; a new one differs from them by its name.
    intro i j e live live' up up' same
    rcases (leaf.only i).mp live with old | rfl <;> rcases (leaf.only j).mp live' with old' | rfl
    · rw [leaf.larger.label i old, leaf.larger.label j old'] at same
      exact rooted.unique i j e old old' ((leaf.larger.parent i old).symm.trans up)
        ((leaf.larger.parent j old').symm.trans up') same
    · obtain rfl : d = e := Option.some.inj (leaf.parent.symm.trans up')
      rw [leaf.larger.label i old] at same
      exact absurd same (named i old ((leaf.larger.parent i old).symm.trans up))
    · obtain rfl : d = e := Option.some.inj (leaf.parent.symm.trans up)
      rw [leaf.larger.label j old'] at same
      exact absurd same.symm (named j old' ((leaf.larger.parent j old').symm.trans up'))
    · rfl

theorem Leaf.cut (leaf : Leaf t u x d) (rooted : u.Rooted root) (inner : root ≠ x) : t.Rooted root := by
  have kept : ∀ {i}, u.live i → i ≠ x → t.live i := fun live other => ((leaf.only _).mp live).resolve_right other
  have linked : ∀ i e, t.live i → t.parent i = some e → t.live e := by
    intro i e live up
    have up' := (leaf.larger.parent i live).trans up
    have live' := leaf.larger.live i live
    exact kept (rooted.linked i e live' up') (fun same => leaf.childless i live' (same ▸ up'))
  have live_root := kept rooted.live_root inner
  refine ⟨live_root, (leaf.larger.parent _ live_root).symm.trans rooted.top, linked, ?_, ?_⟩
  · intro i live
    have climb := rooted.reach i (leaf.larger.live i live)
    induction climb using Relation.ReflTransGen.head_induction_on with
    | refl => exact .refl
    | head up rest ih =>
      have up' := (leaf.larger.parent _ live).symm.trans up
      exact .head up' (ih (linked _ _ live up'))
  · intro i j e live live' up up' same
    refine rooted.unique i j e (leaf.larger.live i live) (leaf.larger.live j live')
      ((leaf.larger.parent i live).trans up) ((leaf.larger.parent j live').trans up') ?_
    rw [leaf.larger.label i live, leaf.larger.label j live', same]

/-- The paths of the larger tree: those of the smaller one, and the leaf's. -/
theorem Leaf.path_iff (leaf : Leaf t u x d) (inner : root ≠ x) :
    u.Path root p i ↔ t.Path root p i ∨ i = x ∧ ∃ q, p = u.label x :: q ∧ t.Path root q d := by
  have below : ∀ {p i}, u.Path root p i → i ≠ x → t.Path root p i := by
    intro p i path
    induction path with
    | root => exact fun _ => .root
    | @child p e i above live parent ih =>
      intro other
      have old := ((leaf.only i).mp live).resolve_right other
      rw [leaf.larger.label i old]
      exact .child (ih (fun same => leaf.childless i live (same ▸ parent))) old
        ((leaf.larger.parent i old).symm.trans parent)
  constructor
  · intro path
    by_cases here : i = x
    · subst here
      cases path with
      | root => exact absurd rfl inner
      | child above live parent =>
        obtain rfl : _ = d := Option.some.inj (parent.symm.trans leaf.parent)
        exact .inr ⟨rfl, _, rfl, below above (fun same => leaf.childless _ leaf.live (same ▸ parent))⟩
    · exact .inl (below path here)
  · rintro (path | ⟨rfl, q, rfl, path⟩)
    · exact path.extend leaf.larger
    · exact .child (path.extend leaf.larger) leaf.live leaf.parent

section Locate

open Classical in
noncomputable def locate (t : ParentTree ι α) (root : ι) (p : List α) : Option ι :=
  if found : ∃ i, t.Path root p i then some found.choose else none

theorem locate_eq_some (rooted : t.Rooted root) : t.locate root p = some i ↔ t.Path root p i := by
  unfold locate
  split
  next found =>
    refine ⟨fun same => Option.some.inj same ▸ found.choose_spec, fun path => ?_⟩
    exact congrArg some (found.choose_spec.inj rooted path)
  next missing => exact ⟨fun none => (by cases none), fun path => absurd ⟨i, path⟩ missing⟩

theorem locate_eq_none : t.locate root p = none ↔ ∀ i, ¬ t.Path root p i := by
  unfold locate
  split
  next found => exact ⟨fun none => (by cases none), fun missing => absurd found.choose_spec (missing _)⟩
  next missing => exact ⟨fun _ i path => missing ⟨i, path⟩, fun _ => rfl⟩

open Classical in
noncomputable def pathOf (t : ParentTree ι α) (root i : ι) : List α :=
  if found : ∃ p, t.Path root p i then found.choose else []

theorem pathOf_eq (rooted : t.Rooted root) (path : t.Path root p i) : t.pathOf root i = p := by
  have found : ∃ p, t.Path root p i := ⟨p, path⟩
  rw [pathOf, dif_pos found]
  exact found.choose_spec.unique rooted path

theorem Rooted.pathOf_path (rooted : t.Rooted root) (live : t.live i) : t.Path root (t.pathOf root i) i := by
  obtain ⟨p, path⟩ := rooted.path_exists live
  rwa [pathOf_eq rooted path]

variable [DecidableEq α]

theorem Leaf.locate_add (leaf : Leaf t u x d) (before : t.Rooted root) (after : u.Rooted root)
    (inner : root ≠ x) (above : t.Path root q d) (p : List α) :
    u.locate root p = if p = u.label x :: q then some x else t.locate root p := by
  split
  next here => exact (locate_eq_some after).mpr ((leaf.path_iff inner).mpr (.inr ⟨rfl, q, here, above⟩))
  next elsewhere =>
    apply Option.ext
    intro i
    rw [locate_eq_some after, locate_eq_some before, leaf.path_iff inner]
    refine ⟨fun path => path.resolve_right ?_, .inl⟩
    rintro ⟨rfl, q', rfl, above'⟩
    exact elsewhere (by rw [above'.unique before above])

theorem Leaf.locate_cut (leaf : Leaf t u x d) (before : u.Rooted root) (after : t.Rooted root)
    (inner : root ≠ x) (above : u.Path root q d) (p : List α) :
    t.locate root p = if p = u.label x :: q then none else u.locate root p := by
  have above' : t.Path root q d := by
    refine ((leaf.path_iff inner).mp above).resolve_right ?_
    rintro ⟨rfl, _⟩
    exact before.parent_ne leaf.live leaf.parent rfl
  have added := leaf.locate_add after before inner above' p
  split
  next here =>
    refine locate_eq_none.mpr fun i path => leaf.fresh ?_
    rw [if_pos here, locate_eq_some before] at added
    exact added.inj before (path.extend leaf.larger) ▸ path.live after
  next elsewhere => rw [added, if_neg elsewhere]

end Locate

end ParentTree
end Library
