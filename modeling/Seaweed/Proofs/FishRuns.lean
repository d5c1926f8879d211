import Seaweed.Proofs.FishInvariant

/-! Runs of calls. On a sound tree every call stays inside its objects and makes an
allowed change, so whatever the changes keep holds in every state a run reaches. -/

namespace Seaweed
open Library

variable {s after : Fish} {i : Fin fishMaxNodes} {p : List CString}

section Paths

/-- The upward walk of `fish_path` collects the nodes of the path, whole when there is
room for it. -/
theorem Sound.climb_path (sound : Sound s) (path : s.tree.Path 0 p i) :
    ∃ chain, chain.map (fun j => (s.nodes j).called) = p ∧ (∀ j ∈ chain, j ≠ 0 ∧ s.Used j) ∧
      ∀ room, p.length ≤ room → climb s room (index i) = .ok chain := by
  induction path with
  | root =>
    refine ⟨[], rfl, by simp, fun room _ => ?_⟩
    cases room <;> rfl
  | @child p d i above live parent ih =>
    have under : (s.nodes i).parent = index d := Fish.tree_parent.mp parent
    have inner := sound.inner under
    have positive : 0 < (index i).toInt := by
      have : i.val ≠ 0 := fun zero => inner (Fin.ext zero)
      rw [toInt_index]
      omega
    obtain ⟨chain, names, inside, climbed⟩ := ih
    refine ⟨i :: chain, by rw [List.map_cons, names]; rfl, List.forall_mem_cons.mpr ⟨⟨inner, live⟩, inside⟩, ?_⟩
    intro room enough
    cases room with
    | zero => simp at enough
    | succ room =>
      have shorter : p.length ≤ room := by simpa using enough
      simp [climb, positive, under, climbed room shorter]

theorem putName_terminated (size : ℕ) (out bytes : List UInt8) (terminated : 0 ∈ bytes) :
    putName size out bytes = .ok ((CString.ofBytes bytes).chars.foldl (putChar size) out) := by
  induction bytes generalizing out with
  | nil => cases terminated
  | cons c rest ih =>
    by_cases zero : c = 0
    · simp [putName, zero, CString.ofBytes]
    · rw [putName, if_neg zero, ih _ ((List.mem_cons.mp terminated).resolve_left (Ne.symm zero))]
      simp [CString.ofBytes, zero]

/-- The text of a path: each name after a slash. -/
def pathText (names : List CString) : List UInt8 := names.flatMap fun name => 47 :: name.chars

theorem Sound.putNames (sound : Sound s) (size : ℕ) (chain : List (Fin fishMaxNodes))
    (inside : ∀ j ∈ chain, j ≠ 0 ∧ s.Used j) (out : List UInt8) :
    chain.foldlM (fun out j => putName size (putChar size out 47) (s.nodes j).name.bytes) out =
      .ok ((pathText (chain.map fun j => (s.nodes j).called)).foldl (putChar size) out) := by
  induction chain generalizing out with
  | nil => rfl
  | cons j rest ih =>
    obtain ⟨inner, used⟩ := inside j (by simp)
    rw [List.foldlM_cons, putName_terminated _ _ _ (sound.named j inner used).1, ok_bind,
      ih fun j member => inside j (by simp [member])]
    simp only [pathText, List.map_cons, List.flatMap_cons, List.foldl_append, List.foldl_cons]
    rfl

theorem Sound.fishPath_eq (sound : Sound s) (here : s.current = index i) (path : s.tree.Path 0 p i)
    (size : UInt32) (room : size ≠ 0) :
    fishPath s size = .ok (if p = [] then (if 2 ≤ size then [47, 0] else [0])
      else (pathText p.reverse).foldl (putChar size.toNat) [] ++ [0]) := by
  have short : p.length ≤ fishMaxNodes := by
    have := path.length_lt_card sound.rooted
    simp only [Fintype.card_fin] at this
    omega
  obtain ⟨chain, names, inside, climbed⟩ := sound.climb_path path
  unfold fishPath
  rw [if_neg room, here, climbed fishMaxNodes short, ok_bind]
  by_cases top : chain = []
  · have empty : p = [] := by rw [← names, top, List.map_nil]
    rw [if_pos top, if_pos empty]
  · have nonempty : p ≠ [] := fun empty => top (by simpa [empty] using names)
    rw [if_neg top, if_neg nonempty,
      sound.putNames _ _ (fun j member => inside j (List.mem_reverse.mp member)), ok_bind,
      List.map_reverse, names]

theorem Sound.fishPath_inside (sound : Sound s) (size : UInt32) : ∃ out, fishPath s size = .ok out := by
  obtain ⟨d, here, used, _⟩ := sound.cwd
  obtain ⟨p, path⟩ := sound.rooted.path_exists used
  by_cases room : size = 0
  · exact ⟨[], by simp [fishPath, room]⟩
  · exact ⟨_, sound.fishPath_eq here path size room⟩

end Paths

theorem Sound.fishRead_inside (sound : Sound s) (name : CString) :
    ∃ result, fishRead s name = .ok result ∧ ∀ size data, result = some (size, data) →
      size.toNat ≤ fishFileMax := by
  obtain ⟨d, here, _, _⟩ := sound.cwd
  rcases sound.fishRead_cases here name with ⟨_, done⟩ | ⟨i, found, ⟨_, done⟩ | ⟨_, done⟩⟩
  · exact ⟨_, done, by simp⟩
  · exact ⟨_, done, by simp⟩
  · refine ⟨_, done, ?_⟩
    rintro size data same
    obtain ⟨rfl, rfl⟩ := Prod.mk.inj (Option.some.inj same)
    exact sound.sized i (Fish.child_some found).1

private theorem Lawful.run {result : Checked (FishCode × Fish)} (lawful : Lawful s result) :
    ∃ after, (do .ok (← result).2) = Except.ok after ∧ Change s after := by
  obtain ⟨code, after, done, change⟩ := lawful
  exact ⟨after, by rw [done]; rfl, change⟩

private theorem Edits.run {result : Checked (FishCode × Fish)} (edits : Edits s result) :
    ∃ after, (do .ok (← result).2) = Except.ok after ∧ Edit s after := by
  obtain ⟨code, after, done, edit, _⟩ := edits
  exact ⟨after, by rw [done]; rfl, edit⟩

theorem FishCall.edit (sound : Sound s) {call : FishCall} (edits : call.edits = true) :
    ∃ after, call.run s = .ok after ∧ Edit s after := by
  cases call with
  | mkdir name => exact (sound.fishMkdir_edits name).run
  | create name => exact (sound.fishCreate_edits name).run
  | remove name => exact (sound.fishRemove_edits name).run
  | write name text => exact (sound.fishWrite_edits name text).run
  | append name text => exact (sound.fishAppend_edits name text).run
  | _ => cases edits

theorem FishCall.change (sound : Sound s) (call : FishCall) :
    ∃ after, call.run s = .ok after ∧ Change s after := by
  cases call with
  | init => exact ⟨fishInit, rfl, .init⟩
  | first | saveCwd | save | next _ => exact ⟨s, rfl, .edit .same⟩
  | mkdir name => exact (sound.fishMkdir_edits name).lawful.run
  | create name => exact (sound.fishCreate_edits name).lawful.run
  | chdir name => exact (sound.fishChdir_lawful name).run
  | remove name => exact (sound.fishRemove_edits name).lawful.run
  | write name text => exact (sound.fishWrite_edits name text).lawful.run
  | append name text => exact (sound.fishAppend_edits name text).lawful.run
  | read name =>
    obtain ⟨result, done, _⟩ := sound.fishRead_inside name
    exact ⟨s, by simp [FishCall.run, done], .edit .same⟩
  | restoreCwd handle => exact ⟨_, rfl, sound.fishRestoreCwd_change handle⟩
  | path size =>
    obtain ⟨out, done⟩ := sound.fishPath_inside size
    exact ⟨s, by simp [FishCall.run, done], .edit .same⟩

theorem runCalls_append (s : Fish) (first rest : List FishCall) :
    runCalls s (first ++ rest) = runCalls s first >>= fun after => runCalls after rest :=
  List.foldlM_append

theorem runCalls_cons {call : FishCall} {calls : List FishCall} (step : call.run s = .ok after) :
    runCalls s (call :: calls) = runCalls after calls := by
  rw [runCalls, List.foldlM_cons, step, ok_bind]
  rfl

/-- What every call of a kind keeps holds after every run of such calls. -/
theorem run_keeps {property : Fish → Prop} {kind : FishCall → Prop}
    (step : ∀ s call, property s → kind call → ∃ after, call.run s = .ok after ∧ property after)
    (calls : List FishCall) (kinds : ∀ call ∈ calls, kind call) (start : property s) :
    ∃ after, runCalls s calls = .ok after ∧ property after :=
  foldlM_keeps (fun s call member holds => step s call holds (kinds call member)) start

/-- A property of sound trees that every change keeps holds after every run, and the
run stays inside its objects. -/
theorem run_preserves {property : Fish → Prop} (sound : ∀ s, property s → Sound s)
    (step : ∀ s after, property s → Change s after → property after)
    (calls : List FishCall) (start : property s) :
    ∃ after, runCalls s calls = .ok after ∧ property after := by
  refine @run_keeps s property (fun _ => True) (fun s call holds _ => ?_) calls (fun _ _ => trivial) start
  obtain ⟨after, done, change⟩ := call.change (sound s holds)
  exact ⟨after, done, step s after holds change⟩

theorem run_sound (calls : List FishCall) (sound : Sound s) :
    ∃ after, runCalls s calls = .ok after ∧ Sound after :=
  run_preserves (fun _ sound => sound) (fun _ _ sound change => change.sound sound) calls sound

theorem run_valid (calls : List FishCall) (valid : Valid s) :
    ∃ after, runCalls s calls = .ok after ∧ Valid after :=
  run_preserves (fun _ valid => valid.toSound) (fun _ _ valid change => change.valid valid) calls valid

theorem Reached.valid (reached : Reached s) : Valid s := by
  obtain ⟨calls, ran⟩ := reached
  obtain ⟨after, done, valid⟩ := run_valid calls fishInit_valid
  rwa [Except.ok.inj (ran.symm.trans done)]

/-- Every run of calls from `fish_init` ends in a state, and there the nodes form a tree
of properly named entries under node 0 with the current directory in it. -/
theorem fish_tree_invariant (calls : List FishCall) :
    ∃ s, runCalls fishInit calls = .ok s ∧ Valid s ∧
      (∀ i, i ≠ 0 → s.Used i → 1 ≤ (s.nodes i).called.chars.length ∧ (s.nodes i).called.chars.length ≤ 31) ∧
      ∀ i, s.Used i → ¬ Relation.TransGen s.Under i i := by
  obtain ⟨s, done, valid⟩ := run_valid calls fishInit_valid
  refine ⟨s, done, valid, ?_, ?_⟩
  · intro i inner used
    have named := validName_spec (valid.named i inner used).2
    exact ⟨named.1, named.2.1⟩
  · intro i used
    rw [← s.tree_up]
    exact valid.rooted.acyclic used

end Seaweed
