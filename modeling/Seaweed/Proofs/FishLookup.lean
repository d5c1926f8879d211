import Seaweed.Fish
import Seaweed.Library.ParentTree

/-! What the helpers of `fish.c` compute on a sound tree. `Sound` is what every
operation relies on; `Valid` adds what the operations maintain besides. -/

namespace Seaweed
open Library

section Slots

theorem slot_lt (i : Fin fishMaxNodes) : i.val < 64 := i.isLt

theorem toInt_index (i : Fin fishMaxNodes) : (index i).toInt = i.val :=
  Int32.toInt_ofNat_of_lt (by have := slot_lt i; omega)

@[simp] theorem slot_index (i : Fin fishMaxNodes) : slot (index i) = .ok i := by
  have inside : 0 ≤ (index i).toInt ∧ (index i).toInt < fishMaxNodes := by
    rw [toInt_index]
    omega
  simp [slot, toInt_index]

theorem index_injective : Function.Injective index := by
  intro i j same
  have := congrArg Int32.toInt same
  rw [toInt_index, toInt_index] at this
  omega

@[simp] theorem index_inj {i j : Fin fishMaxNodes} : index i = index j ↔ i = j := index_injective.eq_iff

theorem slot_eq_ok {x : Int32} {i : Fin fishMaxNodes} : slot x = .ok i ↔ x = index i := by
  constructor
  · intro found
    unfold slot at found
    split at found
    next inside =>
      have same := congrArg Fin.val (Except.ok.inj found)
      apply Int32.toInt_inj.mp
      rw [toInt_index]
      simp only at same
      omega
    next => cases found
  · rintro rfl
    exact slot_index i

@[simp] theorem index_zero : index 0 = 0 := by decide

theorem index_ne_top (i : Fin fishMaxNodes) : index i ≠ -1 := by
  intro same
  have := congrArg Int32.toInt same
  rw [toInt_index] at this
  have top : (-1 : Int32).toInt = -1 := by decide
  omega

end Slots

def Node.called (n : Node) : CString := CString.ofBytes n.name.bytes

def Node.content (n : Node) : List UInt8 := n.data.bytes.take n.size.toNat

def Fish.Used (s : Fish) (i : Fin fishMaxNodes) : Prop := (s.nodes i).used ≠ 0

def Fish.Dir (s : Fish) (i : Fin fishMaxNodes) : Prop := (s.nodes i).isDir ≠ 0

def Fish.Under (s : Fish) (i d : Fin fishMaxNodes) : Prop := (s.nodes i).parent = index d

instance (s : Fish) (i : Fin fishMaxNodes) : Decidable (s.Used i) := inferInstanceAs (Decidable (_ ≠ _))
instance (s : Fish) (i : Fin fishMaxNodes) : Decidable (s.Dir i) := inferInstanceAs (Decidable (_ ≠ _))
instance (s : Fish) (i d : Fin fishMaxNodes) : Decidable (s.Under i d) := inferInstanceAs (Decidable (_ = _))

/-- What every operation of Fish relies on. -/
structure Sound (s : Fish) : Prop where
  root : s.Used 0 ∧ s.Dir 0 ∧ (s.nodes 0).parent = -1
  named : ∀ i, i ≠ 0 → s.Used i → 0 ∈ (s.nodes i).name.bytes ∧ validName (s.nodes i).called = true
  linked : ∀ i, i ≠ 0 → s.Used i → ∃ d, s.Under i d ∧ s.Used d ∧ s.Dir d
  reach : ∀ i, s.Used i → Relation.ReflTransGen s.Under i 0
  unique : ∀ i j, s.Used i → s.Used j → (s.nodes i).parent = (s.nodes j).parent →
    (s.nodes i).called = (s.nodes j).called → i = j
  sized : ∀ i, s.Used i → (s.nodes i).size.toNat ≤ fishFileMax
  cwd : ∃ d, s.current = index d ∧ s.Used d ∧ s.Dir d

/-- The nodes as a tree of parent links, named by their strings. -/
def Fish.tree (s : Fish) : ParentTree (Fin fishMaxNodes) CString where
  live := s.Used
  parent i := (slot (s.nodes i).parent).toOption
  label i := (s.nodes i).called

@[simp] theorem Fish.tree_label (s : Fish) (i : Fin fishMaxNodes) : s.tree.label i = (s.nodes i).called := rfl

theorem Fish.tree_parent {s : Fish} {i d : Fin fishMaxNodes} :
    s.tree.parent i = some d ↔ s.Under i d := by
  rw [Fish.Under, ← slot_eq_ok]
  simp only [Fish.tree]
  cases slot (s.nodes i).parent <;> simp [Except.toOption]

theorem Fish.tree_up (s : Fish) : s.tree.Up = s.Under :=
  funext fun _ => funext fun _ => propext Fish.tree_parent

variable {s : Fish} {i j d : Fin fishMaxNodes}

theorem Fish.Under.unique (first : s.Under i d) (second : s.Under i j) : d = j :=
  index_injective (first.symm.trans second)

theorem Sound.root_not_under (sound : Sound s) : ¬ s.Under 0 d := by
  intro under
  exact index_ne_top d (under.symm.trans sound.root.2.2)

theorem Sound.inner (sound : Sound s) (under : s.Under i d) : i ≠ 0 := by
  rintro rfl
  exact sound.root_not_under under

/-- The bytes of a file are as many as its size says. -/
theorem Sound.content_length (sound : Sound s) (used : s.Used i) :
    (s.nodes i).content.length = (s.nodes i).size.toNat := by
  have size := sound.sized i used
  simp only [Node.content, List.length_take, Buffer.bytes_length]
  omega

theorem Sound.rooted (sound : Sound s) : s.tree.Rooted 0 where
  live_root := sound.root.1
  top := by
    rw [Option.eq_none_iff_forall_ne_some]
    exact fun d up => sound.root_not_under (Fish.tree_parent.mp up)
  linked := by
    intro i d live up
    have under := Fish.tree_parent.mp up
    have inner := sound.inner under
    obtain ⟨e, above, used, _⟩ := sound.linked i inner live
    rwa [under.unique above]
  reach := by
    intro i live
    rw [s.tree_up]
    exact sound.reach i live
  unique := by
    intro i j d live live' up up' same
    exact sound.unique i j live live' ((Fish.tree_parent.mp up).trans (Fish.tree_parent.mp up').symm) same

/-- A used node other than the root hangs under a used directory, never itself. -/
theorem Sound.above (sound : Sound s) (inner : i ≠ 0) (used : s.Used i) :
    ∃ d, s.Under i d ∧ s.Used d ∧ s.Dir d ∧ d ≠ i := by
  obtain ⟨d, under, live, dir⟩ := sound.linked i inner used
  exact ⟨d, under, live, dir, sound.rooted.parent_ne used (Fish.tree_parent.mpr under)⟩

def Fish.child (s : Fish) (d : Fin fishMaxNodes) (name : CString) : Option (Fin fishMaxNodes) :=
  (List.finRange fishMaxNodes).find? fun i =>
    decide (s.Used i) && decide (s.Under i d) && decide ((s.nodes i).called = name)

theorem Fish.child_some {name : CString} (found : s.child d name = some i) :
    s.Used i ∧ s.Under i d ∧ (s.nodes i).called = name := by
  simpa [and_assoc] using List.find?_some found

theorem Fish.child_none {name : CString} (missing : s.child d name = none) (i : Fin fishMaxNodes) :
    ¬ (s.Used i ∧ s.Under i d ∧ (s.nodes i).called = name) := by
  simpa [and_assoc] using List.find?_eq_none.mp missing i (List.mem_finRange i)

/-- On a sound tree `find_child` compares terminated names only. -/
theorem Sound.findChild_eq (sound : Sound s) (d : Fin fishMaxNodes) (name : CString) :
    findChild s (index d) name = .ok (s.child d name) := by
  unfold findChild Fish.child
  generalize List.finRange fishMaxNodes = slots
  induction slots with
  | nil => rfl
  | cons i rest ih =>
    by_cases used : s.Used i
    · by_cases under : s.Under i d
      · have inner := sound.inner under
        obtain ⟨order, compared, equal⟩ := strcmp_terminated _ name (sound.named i inner used).1
        have used' : ¬ (s.nodes i).used = 0 := used
        have under' : ¬ (s.nodes i).parent ≠ index d := fun differ => differ under
        rw [findChildIn, if_neg used', if_neg under', compared, Checked.ofOption_some, ok_bind]
        by_cases same : (s.nodes i).called = name
        · rw [if_pos (equal.mpr same), List.find?_cons_of_pos (by simp [used, under, same])]
        · have differ : order ≠ 0 := fun zero => same (equal.mp zero)
          rw [if_neg differ, List.find?_cons_of_neg (by simp [same]), ih]
      · have under' : (s.nodes i).parent ≠ index d := under
        have used' : ¬ (s.nodes i).used = 0 := used
        rw [findChildIn, if_neg used', if_pos under', List.find?_cons_of_neg (by simp [under]), ih]
    · have used' : (s.nodes i).used = 0 := by simpa [Fish.Used] using used
      rw [findChildIn, if_pos used', List.find?_cons_of_neg (by simp [used]), ih]

section Names

theorem validChars_spec (start : Nat) (chars : List UInt8) (valid : validChars start chars = true) :
    (chars ≠ [] → start + chars.length ≤ fishNameMax - 1) ∧
      ∀ c ∈ chars, c ≠ 47 ∧ 32 < signedChar c := by
  induction chars generalizing start with
  | nil => simp
  | cons c rest ih =>
    simp only [validChars] at valid
    split at valid
    · cases valid
    split at valid
    · cases valid
    next short good =>
      obtain ⟨length, chars⟩ := ih (start + 1) valid
      refine ⟨?_, ?_⟩
      · intro _
        cases rest with
        | nil => simp only [List.length_singleton]; omega
        | cons c' rest' =>
          have := length (by simp)
          simp only [List.length_cons] at this ⊢
          omega
      · intro b member
        rcases List.mem_cons.mp member with rfl | later
        · exact ⟨fun slash => good (.inl slash), by omega⟩
        · exact chars b later

theorem validName_spec {name : CString} (valid : validName name = true) :
    1 ≤ name.chars.length ∧ name.chars.length ≤ fishNameMax - 1 ∧
      (∀ c ∈ name.chars, c ≠ 47 ∧ 32 < signedChar c) ∧ name.chars ≠ [46] ∧ name.chars ≠ [46, 46] := by
  unfold validName at valid
  split at valid
  · cases valid
  next nonempty =>
    split at valid
    · cases valid
    next good =>
      have good' : validChars 0 name.chars = true := by simpa using good
      obtain ⟨length, chars⟩ := validChars_spec 0 name.chars good'
      have positive := List.length_pos_iff.mpr nonempty
      have bound := length nonempty
      split at valid
      · cases valid
      next one =>
        split at valid
        · cases valid
        next two => exact ⟨positive, by omega, chars, one, two⟩

end Names

theorem hasChild_iff : hasChild s (index d) = true ↔ ∃ i, s.Used i ∧ s.Under i d := by
  simp [hasChild, Fish.Used, Fish.Under]

theorem allocate_some (found : allocate s = some i) : i ≠ 0 ∧ ¬ s.Used i := by
  have both := List.find?_some found
  simp only [Bool.and_eq_true, decide_eq_true_eq] at both
  refine ⟨?_, fun used => used both.2⟩
  rintro rfl
  exact absurd both.1 (by decide)

theorem allocate_none (full : allocate s = none) (inner : i ≠ 0) : s.Used i := by
  have taken := List.find?_eq_none.mp full i (List.mem_finRange i)
  have positive : 1 ≤ i.val := by
    have : i.val ≠ 0 := fun zero => inner (Fin.ext zero)
    omega
  simpa [Fish.Used, positive] using taken

end Seaweed
