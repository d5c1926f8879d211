import Seaweed.Proofs.FishView

/-! Coming back to a saved working directory. The handle is the bare number of a slot, so
it finds the directory as long as its slot is not given to another one. -/

namespace Seaweed
open Library

variable {s t after : Fish} {d i : Fin fishMaxNodes} {p : Path} {calls : List FishCall}

/-- The calls that may come between `fish_save_cwd` and `fish_restore_cwd`. -/
def FishCall.roams : FishCall → Bool
  | .chdir _ => true
  | call => call.edits

/-- At some point of the run the slot is free, so what was in it has been removed. -/
def Removed (s : Fish) (calls : List FishCall) (i : Fin fishMaxNodes) : Prop :=
  ∃ before rest t, calls = before ++ rest ∧ runCalls s before = .ok t ∧ ¬ t.Used i

/-- After the run, restoring the directory that was current at its start leads back to
it, or to the root when it was removed. -/
def ComesBack (s : Fish) (calls : List FishCall) (d : Fin fishMaxNodes) (after : Fish) : Prop :=
  (¬ Removed s calls d → (fishRestoreCwd after (fishSaveCwd s)).current = s.current ∧
    (fishRestoreCwd after (fishSaveCwd s)).cwdPath = s.cwdPath) ∧
  (Removed s calls d → (fishRestoreCwd after (fishSaveCwd s)).current = 0)

/-- An edit leaves a directory that it does not free where it is. -/
theorem Edit.path (edit : Edit s after) (sound : Sound s) (path : s.tree.Path 0 p i) (live : after.Used i) :
    after.tree.Path 0 p i ∧ (s.Dir i → after.Dir i) := by
  cases edit with
  | same => exact ⟨path, id⟩
  | @add d x name field flag here inner fresh valid missing terminated called =>
    have other : i ≠ x := by
      rintro rfl
      exact fresh (path.live sound.rooted)
    obtain ⟨e, here', used, _⟩ := sound.cwd
    obtain rfl := index_injective (here.symm.trans here')
    exact ⟨path.extend (sound.made_leaf field flag fresh used).larger, (Fish.set_dir other).mpr⟩
  | @remove d x here used under empty =>
    have other := (Fish.removed_used live).1
    have inner := sound.inner under
    refine ⟨?_, (Fish.set_dir other).mpr⟩
    rcases ((Fish.removed_leaf used under empty).path_iff (Ne.symm inner)).mp path with kept | ⟨same, _⟩
    · exact kept
    · exact absurd same other
  | @fill x data size used file short =>
    refine ⟨by rwa [s.filled_tree x data size], fun dir => ?_⟩
    rw [Fish.Dir, (s.filled_same x data size i).2.1]
    exact dir

/-- `fish_create` and `fish_write` free no slot. -/
theorem Sound.fishCreate_used (sound : Sound s) {name : CString} {code : FishCode}
    (done : fishCreate s name = .ok (code, after)) (used : s.Used i) : after.Used i := by
  obtain ⟨d, here, _, _⟩ := sound.cwd
  rw [fishCreate] at done
  rcases sound.makeNode_cases here name 0 with ⟨_, made⟩ | ⟨_, _, made⟩ | ⟨_, _, _, made⟩ |
    ⟨_, _, x, field, _, fresh, _, _, made⟩
  all_goals
    rw [made] at done
    obtain ⟨_, rfl⟩ := Prod.mk.inj (Except.ok.inj done)
  · exact used
  · exact used
  · exact used
  · have other : i ≠ x := by
      rintro rfl
      exact fresh used
    exact (Fish.set_used other).mpr used

theorem Sound.fishWrite_used (sound : Sound s) {name : CString} {text : Text} {code : FishCode}
    (done : fishWrite s name text.toCString = .ok (code, after)) (used : s.Used i) : after.Used i := by
  obtain ⟨d, here, _, _⟩ := sound.cwd
  rcases sound.fishWrite_cases here name text with ⟨_, wrote⟩ |
    ⟨x, _, ⟨_, wrote⟩ | ⟨_, _, wrote⟩ | ⟨_, _, data, size, _, _, wrote⟩⟩
  all_goals
    rw [wrote] at done
    obtain ⟨_, rfl⟩ := Prod.mk.inj (Except.ok.inj done)
  · exact used
  · exact used
  · exact used
  · rw [Fish.Used, (s.filled_same x data size i).1]
    exact used

/-- Each call keeps the invariant, and the directory unless it frees its slot. -/
theorem FishCall.roam (valid : Valid s) {call : FishCall} (roams : call.roams = true) :
    ∃ after, call.run s = .ok after ∧ Valid after ∧ ∀ {p i}, s.tree.Path 0 p i → s.Dir i → after.Used i →
      after.tree.Path 0 p i ∧ after.Dir i := by
  by_cases edits : call.edits = true
  · obtain ⟨after, done, edit⟩ := call.edit valid.toSound edits
    refine ⟨after, done, (Change.edit edit).valid valid, fun path dir live => ?_⟩
    obtain ⟨path', dir'⟩ := edit.path valid.toSound path live
    exact ⟨path', dir' dir⟩
  · cases call with
    | chdir name =>
      obtain ⟨code, e, done, used, dir, _⟩ := valid.toSound.fishChdir_moves name
      refine ⟨_, by rw [FishCall.run, done]; rfl, Change.valid (.move used dir) valid, fun path dir _ => ⟨path, dir⟩⟩
    | _ => exact absurd roams edits

theorem Removed.later {call : FishCall} (step : call.run s = .ok t) (removed : Removed t calls i) :
    Removed s (call :: calls) i := by
  obtain ⟨before, rest, u, rfl, ran, free⟩ := removed
  exact ⟨call :: before, rest, u, rfl, (runCalls_cons step).trans ran, free⟩

/-- A directory that is not removed during a run is there at its end, at the same path. -/
theorem Valid.roam_run (valid : Valid s) (roams : ∀ call ∈ calls, call.roams = true) :
    ∃ after, runCalls s calls = .ok after ∧ Valid after ∧ ∀ {p i}, s.tree.Path 0 p i → s.Dir i →
      ¬ Removed s calls i → after.Used i ∧ after.tree.Path 0 p i ∧ after.Dir i := by
  induction calls generalizing s with
  | nil =>
    refine ⟨s, rfl, valid, fun path dir _ => ⟨path.live valid.toSound.rooted, path, dir⟩⟩
  | cons call rest ih =>
    obtain ⟨here, later⟩ := List.forall_mem_cons.mp roams
    obtain ⟨middle, done, valid', keeps⟩ := call.roam valid here
    obtain ⟨after, ran, valid'', ends⟩ := ih valid' later
    refine ⟨after, (runCalls_cons done).trans ran, valid'', @fun p i path dir stays => ?_⟩
    have live : middle.Used i := by
      by_contra free
      exact stays (.later done ⟨[], rest, middle, rfl, rfl, free⟩)
    obtain ⟨path', dir'⟩ := keeps path dir live
    exact ends path' dir' fun removed => stays (removed.later done)

theorem fishRestoreCwd_index (s : Fish) (i : Fin fishMaxNodes) :
    fishRestoreCwd s (index i) = if s.Used i ∧ s.Dir i then { s with current := index i } else { s with current := 0 } := by
  rw [fishRestoreCwd, slot_index]
  rfl

/-- Away and back without a change in between. -/
theorem Sound.fishRestoreCwd_same (sound : Sound s) (away : Int32) :
    fishRestoreCwd { s with current := away } s.current = s := by
  obtain ⟨d, here, used, dir⟩ := sound.cwd
  have back := fishRestoreCwd_index { s with current := away } d
  rw [← here] at back
  exact back.trans (if_pos ⟨used, dir⟩)

/-- Restoring a saved directory leads back to it, or to the root when it was removed,
exactly when no other directory has taken the slot of a removed one. -/
theorem saved_directory_comes_back_iff (reached : Reached s) (roams : ∀ call ∈ calls, call.roams = true) :
    ∃ d after, fishSaveCwd s = index d ∧ runCalls s calls = .ok after ∧
      (ComesBack s calls d after ↔ (Removed s calls d → ¬ (after.Used d ∧ after.Dir d))) := by
  have valid := reached.valid
  obtain ⟨d, here, used, dir, path⟩ := valid.toSound.cwd_path
  obtain ⟨after, ran, valid', keeps⟩ := valid.roam_run roams
  refine ⟨d, after, here, ran, ?_⟩
  have restored := fishRestoreCwd_index after d
  rw [← here] at restored
  constructor
  · intro back removed there
    have root := back.2 removed
    rw [fishSaveCwd, restored, if_pos there] at root
    have top : d = 0 := index_injective (by rw [index_zero, ← here]; exact root)
    -- The root's slot is used in every state of the run.
    obtain ⟨before, rest, t, rfl, ran', free⟩ := removed
    obtain ⟨_, ran'', valid'', _⟩ := valid.roam_run fun call member => roams call (List.mem_append_left rest member)
    rw [Except.ok.inj (ran'.symm.trans ran''), top] at free
    exact free valid''.root.1
  · intro apart
    refine ⟨fun stays => ?_, fun removed => ?_⟩
    · obtain ⟨live, path', dir'⟩ := keeps path dir stays
      rw [fishSaveCwd, restored, if_pos ⟨live, dir'⟩]
      have moved : Sound { after with current := s.current } := here ▸ valid'.toSound.move live dir'
      exact ⟨rfl, moved.cwdPath_eq here path'⟩
    · rw [fishSaveCwd, restored, if_neg (apart removed)]

section Recycled

def inA : List FishCall := [.mkdir (literal "a"), .chdir (literal "a")]

def removeA : List FishCall := [.chdir (literal ".."), .remove (literal "a")]

def makeB : List FishCall := [.mkdir (literal "b")]

theorem removeA_roams : ∀ call ∈ removeA ++ makeB, call.roams = true := by
  simp [removeA, makeB, FishCall.roams, FishCall.edits]

theorem saved_directory_comes_back_of_leaving : ∃ s d after, runCalls fishInit inA = .ok s ∧
    runCalls s (removeA ++ makeB) = .ok after ∧
    (ComesBack s (removeA ++ makeB) d after ↔ (Removed s (removeA ++ makeB) d → ¬ (after.Used d ∧ after.Dir d))) := by
  obtain ⟨s, start, _⟩ := run_valid inA fishInit_valid
  obtain ⟨d, after, _, ran, iff⟩ := @saved_directory_comes_back_iff s (removeA ++ makeB) ⟨_, start⟩ removeA_roams
  exact ⟨s, d, after, start, ran, iff⟩

/-- Leave `a`, remove it and make `b`: the handle of `a` leads into `b`. -/
theorem saved_directory_recycled : ¬ ∀ (s : Fish) (calls : List FishCall) (d : Fin fishMaxNodes) (after : Fish), Reached s →
    (∀ call ∈ calls, call.roams = true) → fishSaveCwd s = index d → runCalls s calls = .ok after →
    ComesBack s calls d after := by
  intro all
  obtain ⟨s, start, valid⟩ := run_valid inA fishInit_valid
  obtain ⟨gone, left, _⟩ := run_valid removeA valid
  obtain ⟨after, made, _⟩ := run_valid (removeA ++ makeB) valid
  have inside : (runCalls fishInit inA).toOption.map (fun s => s.current) = some (index 1) := rfl
  have emptied : (runCalls fishInit (inA ++ removeA)).toOption.map (fun s => (s.nodes 1).used) = some 0 := rfl
  have reused : (runCalls fishInit (inA ++ (removeA ++ makeB))).toOption.map
      (fun s => ((s.nodes 1).used, (s.nodes 1).isDir)) = some (1, 1) := rfl
  rw [start] at inside
  rw [runCalls_append, start, ok_bind, left] at emptied
  rw [runCalls_append, start, ok_bind, made] at reused
  have here : s.current = index 1 := Option.some.inj inside
  have free : ¬ gone.Used 1 := not_not_intro (Option.some.inj emptied)
  obtain ⟨used, dir⟩ := Prod.mk.inj (Option.some.inj reused)
  have taken : after.Used 1 ∧ after.Dir 1 := by
    rw [Fish.Used, Fish.Dir, used, dir]
    decide
  have root := (all s _ 1 after ⟨_, start⟩ removeA_roams here made).2 ⟨removeA, makeB, gone, rfl, left, free⟩
  rw [fishSaveCwd, here, fishRestoreCwd_index, if_pos taken] at root
  exact absurd (index_injective (root.trans index_zero.symm)) (by decide)

end Recycled

end Seaweed
