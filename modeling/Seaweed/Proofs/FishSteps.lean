import Seaweed.Proofs.FishLookup

/-! What each operation of Fish does on a sound tree, branch by branch. No operation
indexes outside an object there, and the state changes in one of six ways. -/

namespace Seaweed
open Library

variable {s : Fish} {d i : Fin fishMaxNodes} {node : Node}

@[simp] theorem Fish.set_current : (s.set i node).current = s.current := rfl

@[simp] theorem Fish.set_same : (s.set i node).nodes i = node := Function.update_self ..

theorem Fish.set_other {j : Fin fishMaxNodes} (other : j ≠ i) : (s.set i node).nodes j = s.nodes j :=
  Function.update_of_ne other ..

def Node.made (n : Node) (field : Buffer fishNameMax) (flag parent : Int32) : Node :=
  { n with name := field, used := 1, isDir := flag, parent := parent, size := 0 }

theorem Sound.makeNode_cases (sound : Sound s) (here : s.current = index d) (name : CString) (flag : Int32) :
    (validName name = false ∧ makeNode s name flag = .ok (.error .name, s)) ∨
    (validName name = true ∧ s.child d name ≠ none ∧ makeNode s name flag = .ok (.error .exists, s)) ∨
    (validName name = true ∧ s.child d name = none ∧ (∀ i, i ≠ 0 → s.Used i) ∧
      makeNode s name flag = .ok (.error .full, s)) ∨
    (validName name = true ∧ s.child d name = none ∧ ∃ i field, i ≠ 0 ∧ ¬ s.Used i ∧
      0 ∈ field.bytes ∧ CString.ofBytes field.bytes = name ∧
      makeNode s name flag = .ok (.ok i, s.set i ((s.nodes i).made field flag (index d)))) := by
  cases valid : validName name with
  | false => exact .inl ⟨rfl, by simp [makeNode, valid]⟩
  | true =>
    right
    unfold makeNode
    rw [here, sound.findChild_eq d name]
    cases found : s.child d name with
    | some i => exact .inl ⟨rfl, by simp, by simp [valid]⟩
    | none =>
      right
      cases free : allocate s with
      | none => exact .inl ⟨rfl, rfl, fun i inner => allocate_none free inner, by simp [valid]⟩
      | some i =>
        obtain ⟨inner, fresh⟩ := allocate_some free
        have short := (validName_spec valid).2.1
        obtain ⟨field, copied, terminated, called⟩ :=
          strcpy_inside (s.nodes i).name name (Nat.lt_of_le_of_lt short (by decide))
        refine .inr ⟨rfl, rfl, i, field, inner, fresh, terminated, called, ?_⟩
        simp [valid, copied, Node.made]

theorem Sound.fishChdir_cases (sound : Sound s) (here : s.current = index d) (name : CString) :
    (name.chars = [] ∧ fishChdir s name = .ok (.noent, s)) ∨
    (name.chars = [47] ∧ fishChdir s name = .ok (.ok, { s with current := index 0 })) ∨
    (name.chars = [46] ∧ fishChdir s name = .ok (.ok, s)) ∨
    (name.chars = [46, 46] ∧ ((d = 0 ∧ fishChdir s name = .ok (.ok, s)) ∨
      ∃ e, s.Under d e ∧ fishChdir s name = .ok (.ok, { s with current := index e }))) ∨
    (name.chars ≠ [] ∧ name.chars ≠ [47] ∧ name.chars ≠ [46] ∧ name.chars ≠ [46, 46] ∧
      ((s.child d name = none ∧ fishChdir s name = .ok (.noent, s)) ∨
        ∃ i, s.child d name = some i ∧
          ((¬ s.Dir i ∧ fishChdir s name = .ok (.notdir, s)) ∨
            (s.Dir i ∧ fishChdir s name = .ok (.ok, { s with current := index i }))))) := by
  by_cases empty : name.chars = []
  · exact .inl ⟨empty, by simp [fishChdir, empty]⟩
  by_cases slash : name.chars = [47]
  · exact .inr (.inl ⟨slash, by simp [fishChdir, slash]⟩)
  by_cases dot : name.chars = [46]
  · exact .inr (.inr (.inl ⟨dot, by simp [fishChdir, dot]⟩))
  by_cases dots : name.chars = [46, 46]
  · refine .inr (.inr (.inr (.inl ⟨dots, ?_⟩)))
    have unfolded : fishChdir s name =
        if 0 ≤ (s.nodes d).parent.toInt then .ok (.ok, { s with current := (s.nodes d).parent })
        else .ok (.ok, s) := by
      simp [fishChdir, dots, here]
    rw [unfolded]
    by_cases top : d = 0
    · subst top
      have negative : ¬ 0 ≤ (s.nodes 0).parent.toInt := by
        rw [sound.root.2.2]
        decide
      exact .inl ⟨rfl, if_neg negative⟩
    · obtain ⟨_, same, used, _⟩ := sound.cwd
      obtain rfl := index_injective (here.symm.trans same)
      obtain ⟨e, under, _⟩ := sound.linked _ top used
      have positive : 0 ≤ (s.nodes d).parent.toInt := by
        rw [under, toInt_index]
        omega
      exact .inr ⟨e, under, by rw [if_pos positive, under]⟩
  · refine .inr (.inr (.inr (.inr ⟨empty, slash, dot, dots, ?_⟩)))
    unfold fishChdir
    rw [here, sound.findChild_eq d name]
    cases found : s.child d name with
    | none => exact .inl ⟨rfl, by simp [empty, slash, dot, dots]⟩
    | some i =>
      refine .inr ⟨i, rfl, ?_⟩
      by_cases dir : s.Dir i
      · exact .inr ⟨dir, by simpa [empty, slash, dot, dots] using fun file => absurd file dir⟩
      · have file : (s.nodes i).isDir = 0 := by simpa [Fish.Dir] using dir
        exact .inl ⟨dir, by simp [empty, slash, dot, dots, file]⟩

theorem Sound.fishRemove_cases (sound : Sound s) (here : s.current = index d) (name : CString) :
    (s.child d name = none ∧ fishRemove s name = .ok (.noent, s)) ∨
    ∃ i, s.child d name = some i ∧
      ((s.Dir i ∧ (∃ j, s.Used j ∧ s.Under j i) ∧ fishRemove s name = .ok (.notempty, s)) ∨
        ((∀ j, s.Used j → ¬ s.Under j i) ∧
          fishRemove s name = .ok (.ok, s.set i { s.nodes i with used := 0 }))) := by
  unfold fishRemove
  rw [here, sound.findChild_eq d name]
  cases found : s.child d name with
  | none => exact .inl ⟨rfl, rfl⟩
  | some i =>
    refine .inr ⟨i, rfl, ?_⟩
    by_cases holds : ∃ j, s.Used j ∧ s.Under j i
    · obtain ⟨j, used, under⟩ := holds
      have inner := sound.inner under
      obtain ⟨e, above, _, dir⟩ := sound.linked j inner used
      obtain rfl := above.unique under
      refine .inl ⟨dir, ⟨j, used, under⟩, ?_⟩
      simp only [ok_bind]
      exact if_pos ⟨dir, hasChild_iff.mpr ⟨j, used, under⟩⟩
    · refine .inr ⟨fun j used under => holds ⟨j, used, under⟩, ?_⟩
      simp only [ok_bind]
      exact if_neg fun both => holds (hasChild_iff.mp both.2)

theorem Text.sizeOf_toNat (text : Text) : (sizeOf text.toCString).toNat = text.chars.length := by
  have := text.short
  exact UInt32.toNat_ofNat_of_lt' (by simp only [UInt32.size]; omega)

theorem Text.taken (text : Text) : text.chars.take (sizeOf text.toCString).toNat = text.chars := by
  rw [text.sizeOf_toNat, List.take_length]

/-- The branches of an edit that puts `change old` in the place of the named file's bytes. -/
def EditOutcome (s : Fish) (d : Fin fishMaxNodes) (name : CString) (change : List UInt8 → List UInt8)
    (result : Checked (FishCode × Fish)) : Prop :=
  (s.child d name = none ∧ result = .ok (.noent, s)) ∨
  ∃ i, s.child d name = some i ∧
    ((s.Dir i ∧ result = .ok (.isdir, s)) ∨
      (¬ s.Dir i ∧ fishFileMax < (change (s.nodes i).content).length ∧ result = .ok (.space, s)) ∨
      (¬ s.Dir i ∧ (change (s.nodes i).content).length ≤ fishFileMax ∧ ∃ data size,
        size.toNat = (change (s.nodes i).content).length ∧
        data.bytes.take size.toNat = change (s.nodes i).content ∧
        result = .ok (.ok, s.set i { s.nodes i with data := data, size := size })))

theorem Sound.fishWrite_cases (sound : Sound s) (here : s.current = index d) (name : CString) (text : Text) :
    EditOutcome s d name (fun _ => text.chars) (fishWrite s name text.toCString) := by
  unfold EditOutcome
  unfold fishWrite
  rw [here, sound.findChild_eq d name, text.taken]
  cases found : s.child d name with
  | none => exact .inl ⟨rfl, rfl⟩
  | some i =>
    refine .inr ⟨i, rfl, ?_⟩
    simp only [ok_bind]
    by_cases dir : s.Dir i
    · exact .inl ⟨dir, if_pos dir⟩
    have file : ¬ (s.nodes i).isDir ≠ 0 := dir
    have limit : 512 < sizeOf text.toCString ↔ fishFileMax < text.chars.length := by
      rw [UInt32.lt_iff_toNat_lt, text.sizeOf_toNat]
      rfl
    rw [if_neg file]
    by_cases long : fishFileMax < text.chars.length
    · exact .inr (.inl ⟨dir, long, if_pos (limit.mpr long)⟩)
    · have fits : 0 + text.chars.length ≤ fishFileMax := by omega
      refine .inr (.inr ⟨dir, by omega, overlay (s.nodes i).data 0 text.chars, sizeOf text.toCString,
        text.sizeOf_toNat, ?_, ?_⟩)
      · rw [text.sizeOf_toNat]
        simpa using overlay_bytes (s.nodes i).data 0 text.chars fits
      · rw [if_neg (fun more => long (limit.mp more)), memcpy_inside _ _ _ fits]
        rfl

theorem Sound.fishAppend_cases (sound : Sound s) (here : s.current = index d) (name : CString) (text : Text) :
    EditOutcome s d name (fun old => old ++ text.chars) (fishAppend s name text.toCString) := by
  simp only [EditOutcome, List.length_append]
  unfold fishAppend
  rw [here, sound.findChild_eq d name, text.taken]
  cases found : s.child d name with
  | none => exact .inl ⟨rfl, rfl⟩
  | some i =>
    refine .inr ⟨i, rfl, ?_⟩
    simp only [ok_bind]
    by_cases dir : s.Dir i
    · exact .inl ⟨dir, if_pos dir⟩
    have file : ¬ (s.nodes i).isDir ≠ 0 := dir
    have old := sound.sized i (Fish.child_some found).1
    have length := sound.content_length (Fish.child_some found).1
    -- The old size is at most 512 and the text is short, so the 32-bit sum is the real one.
    have sum : ((s.nodes i).size + sizeOf text.toCString).toNat = (s.nodes i).content.length + text.chars.length := by
      have := text.short
      simp only [fishFileMax] at old
      rw [UInt32.toNat_add, text.sizeOf_toNat, length, Nat.mod_eq_of_lt (by omega)]
    have limit : 512 < (s.nodes i).size + sizeOf text.toCString ↔
        fishFileMax < (s.nodes i).content.length + text.chars.length := by
      rw [UInt32.lt_iff_toNat_lt, sum]
      rfl
    rw [if_neg file]
    by_cases long : fishFileMax < (s.nodes i).content.length + text.chars.length
    · exact .inr (.inl ⟨dir, long, if_pos (limit.mpr long)⟩)
    · have fits : (s.nodes i).size.toNat + text.chars.length ≤ fishFileMax := by omega
      refine .inr (.inr ⟨dir, by omega, overlay (s.nodes i).data (s.nodes i).size.toNat text.chars,
        _, sum, ?_, ?_⟩)
      · rw [sum, length]
        exact overlay_bytes (s.nodes i).data _ text.chars fits
      · rw [if_neg (fun more => long (limit.mp more)), memcpy_inside _ _ _ fits]
        rfl

theorem Sound.fishRead_cases (sound : Sound s) (here : s.current = index d) (name : CString) :
    (s.child d name = none ∧ fishRead s name = .ok none) ∨
    ∃ i, s.child d name = some i ∧
      ((s.Dir i ∧ fishRead s name = .ok none) ∨
        (¬ s.Dir i ∧ fishRead s name = .ok (some ((s.nodes i).size, (s.nodes i).data)))) := by
  unfold fishRead
  rw [here, sound.findChild_eq d name]
  cases found : s.child d name with
  | none => exact .inl ⟨rfl, rfl⟩
  | some i =>
    refine .inr ⟨i, rfl, ?_⟩
    simp only [ok_bind]
    by_cases dir : s.Dir i
    · exact .inl ⟨dir, if_pos dir⟩
    · exact .inr ⟨dir, if_neg dir⟩

/-- The changes that touch the entries of the current directory only. -/
inductive Edit (s : Fish) : Fish → Prop where
  | same : Edit s s
  | add {d i : Fin fishMaxNodes} {name : CString} {field : Buffer fishNameMax} {flag : Int32}
      (here : s.current = index d) (inner : i ≠ 0) (fresh : ¬ s.Used i)
      (valid : validName name = true) (missing : s.child d name = none)
      (terminated : 0 ∈ field.bytes) (called : CString.ofBytes field.bytes = name) :
      Edit s (s.set i ((s.nodes i).made field flag (index d)))
  | remove {d i : Fin fishMaxNodes} (here : s.current = index d) (used : s.Used i) (under : s.Under i d)
      (empty : ∀ j, s.Used j → ¬ s.Under j i) : Edit s (s.set i { s.nodes i with used := 0 })
  | fill {i : Fin fishMaxNodes} {data : Buffer fishFileMax} {size : UInt32} (used : s.Used i)
      (file : ¬ s.Dir i) (short : size.toNat ≤ fishFileMax) :
      Edit s (s.set i { s.nodes i with data := data, size := size })

/-- The ways in which an operation may change a sound tree. -/
inductive Change (s : Fish) : Fish → Prop where
  | init : Change s fishInit
  | move {d : Fin fishMaxNodes} (used : s.Used d) (dir : s.Dir d) : Change s { s with current := index d }
  | edit {after : Fish} (edit : Edit s after) : Change s after

variable {after : Fish}

theorem Edit.current (edit : Edit s after) : after.current = s.current := by
  cases edit <;> rfl

/-- An operation stays inside its objects and ends in an allowed change. -/
def Lawful (s : Fish) (result : Checked (FishCode × Fish)) : Prop :=
  ∃ code after, result = .ok (code, after) ∧ Change s after

/-- An operation that edits the current directory, or refuses and leaves all as it is. -/
def Edits (s : Fish) (result : Checked (FishCode × Fish)) : Prop :=
  ∃ code after, result = .ok (code, after) ∧ Edit s after ∧ (code ≠ .ok → after = s)

section Results

variable {result : Checked (FishCode × Fish)} {code : FishCode}

theorem Edits.lawful (edits : Edits s result) : Lawful s result := by
  obtain ⟨code, after, done, edit, _⟩ := edits
  exact ⟨code, after, done, .edit edit⟩

theorem Edits.refused (done : result = .ok (code, s)) : Edits s result :=
  ⟨code, s, done, .same, fun _ => rfl⟩

theorem Edits.accepted (done : result = .ok (.ok, after)) (edit : Edit s after) : Edits s result :=
  ⟨.ok, after, done, edit, fun failed => absurd rfl failed⟩

end Results

theorem Sound.makeNode_edits (sound : Sound s) (name : CString) (flag : Int32) :
    Edits s (do
      let (result, after) ← makeNode s name flag
      .ok (resultCode result, after)) := by
  obtain ⟨d, here, _, _⟩ := sound.cwd
  rcases sound.makeNode_cases here name flag with ⟨_, done⟩ | ⟨_, _, done⟩ | ⟨_, _, _, done⟩ |
    ⟨valid, missing, i, field, inner, fresh, terminated, called, done⟩
  · exact .refused (by rw [done]; rfl)
  · exact .refused (by rw [done]; rfl)
  · exact .refused (by rw [done]; rfl)
  · exact .accepted (by rw [done]; rfl) (.add here inner fresh valid missing terminated called)

theorem Sound.fishMkdir_edits (sound : Sound s) (name : CString) : Edits s (fishMkdir s name) :=
  sound.makeNode_edits name 1

theorem Sound.fishCreate_edits (sound : Sound s) (name : CString) : Edits s (fishCreate s name) :=
  sound.makeNode_edits name 0

/-- `fish_chdir` moves to a directory, or refuses and stays. -/
theorem Sound.fishChdir_moves (sound : Sound s) (name : CString) :
    ∃ code d, fishChdir s name = .ok (code, { s with current := index d }) ∧ s.Used d ∧ s.Dir d ∧
      (code ≠ .ok → s.current = index d) := by
  obtain ⟨d, here, used, dir⟩ := sound.cwd
  have stay : ∀ {code}, fishChdir s name = .ok (code, s) →
      ∃ code d, fishChdir s name = .ok (code, { s with current := index d }) ∧ s.Used d ∧ s.Dir d ∧
        (code ≠ .ok → s.current = index d) := by
    intro code done
    exact ⟨code, d, by rw [done, ← here], used, dir, fun _ => here⟩
  rcases sound.fishChdir_cases here name with ⟨_, done⟩ | ⟨_, done⟩ | ⟨_, done⟩ |
    ⟨_, ⟨_, done⟩ | ⟨e, under, done⟩⟩ | ⟨_, _, _, _, ⟨_, done⟩ | ⟨i, found, ⟨_, done⟩ | ⟨dir, done⟩⟩⟩
  · exact stay done
  · exact ⟨.ok, 0, done, sound.root.1, sound.root.2.1, fun failed => absurd rfl failed⟩
  · exact stay done
  · exact stay done
  · have inner := sound.inner under
    obtain ⟨e', above, live, dir⟩ := sound.linked d inner used
    obtain rfl := above.unique under
    exact ⟨.ok, e', done, live, dir, fun failed => absurd rfl failed⟩
  · exact stay done
  · exact stay done
  · exact ⟨.ok, i, done, (Fish.child_some found).1, dir, fun failed => absurd rfl failed⟩

theorem Sound.fishRemove_edits (sound : Sound s) (name : CString) : Edits s (fishRemove s name) := by
  obtain ⟨d, here, _, _⟩ := sound.cwd
  rcases sound.fishRemove_cases here name with ⟨_, done⟩ | ⟨i, found, ⟨_, _, done⟩ | ⟨empty, done⟩⟩
  · exact .refused done
  · exact .refused done
  · obtain ⟨used, under, _⟩ := Fish.child_some found
    exact .accepted done (.remove here used under empty)

theorem EditOutcome.edits {name : CString} {change : List UInt8 → List UInt8} {result : Checked (FishCode × Fish)}
    (outcome : EditOutcome s d name change result) : Edits s result := by
  rcases outcome with ⟨_, done⟩ | ⟨i, found, ⟨_, done⟩ | ⟨_, _, done⟩ | ⟨file, fits, data, size, length, _, done⟩⟩
  · exact .refused done
  · exact .refused done
  · exact .refused done
  · exact .accepted done (.fill (Fish.child_some found).1 file (by omega))

theorem Sound.fishWrite_edits (sound : Sound s) (name : CString) (text : Text) :
    Edits s (fishWrite s name text.toCString) := by
  obtain ⟨d, here, _, _⟩ := sound.cwd
  exact (sound.fishWrite_cases here name text).edits

theorem Sound.fishAppend_edits (sound : Sound s) (name : CString) (text : Text) :
    Edits s (fishAppend s name text.toCString) := by
  obtain ⟨d, here, _, _⟩ := sound.cwd
  exact (sound.fishAppend_cases here name text).edits

theorem Sound.fishChdir_lawful (sound : Sound s) (name : CString) : Lawful s (fishChdir s name) := by
  obtain ⟨code, d, done, used, dir, _⟩ := sound.fishChdir_moves name
  exact ⟨code, _, done, .move used dir⟩

theorem Sound.fishRestoreCwd_change (sound : Sound s) (handle : Int32) : Change s (fishRestoreCwd s handle) := by
  have back : Change s { s with current := 0 } := by
    have moved : Change s { s with current := index 0 } := .move sound.root.1 sound.root.2.1
    rwa [index_zero] at moved
  unfold fishRestoreCwd
  split
  next i inside =>
    split
    next usable =>
      rw [slot_eq_ok] at inside
      subst inside
      exact .move usable.1 usable.2
    next => exact back
  next => exact back

end Seaweed
