import Seaweed.User
import Seaweed.Proofs.FishView

/-! The text that `fish_path` writes, taken apart at its slashes again. Names carry no
slash and are neither `.` nor `..`, so walking the parts leads back. -/

namespace Seaweed
open Library

variable {s t : Fish} {d i : Fin fishMaxNodes} {p : Path} {names rest : List CString} {name : CString}

/-- A path as `fish_path` writes it when the buffer is large enough. -/
def Path.text (p : Path) : CString where
  chars := if p = [] then [47] else pathText p.reverse
  terminated := by
    split
    next => decide
    next =>
      intro member
      obtain ⟨name, _, inside⟩ := List.mem_flatMap.mp member
      rcases List.mem_cons.mp inside with slash | letter
      · exact absurd slash (by decide)
      · exact name.terminated letter

theorem Path.text_inner (inner : p ≠ []) : p.text.chars = pathText p.reverse := if_neg inner

/-- What stands between the slashes of a string, where it is not empty. -/
def components (written : List UInt8) : List CString :=
  (((CString.ofBytes written).chars.splitOn 47).filter fun part => !part.isEmpty).map CString.ofBytes

/-- `fish_chdir` on each name in order, whatever it answers. -/
def chdirEach (s : Fish) : List CString → Checked (List FishCode × Fish)
  | [] => .ok ([], s)
  | name :: rest => do
    let (code, s) ← fishChdir s name
    let (codes, s) ← chdirEach s rest
    .ok (code :: codes, s)

section Texts

/-- Characters are added while there is room for them and the terminator. -/
theorem putChars_take (size : ℕ) (text out : List UInt8) (room : out.length < size) :
    text.foldl (putChar size) out = out ++ text.take (size - 1 - out.length) := by
  induction text generalizing out with
  | nil => simp
  | cons c text ih =>
    rw [List.foldl_cons]
    by_cases fits : out.length + 1 < size
    · have step : putChar size out c = out ++ [c] := if_pos fits
      have longer : (out ++ [c]).length = out.length + 1 := by simp
      have left : size - 1 - out.length = size - 1 - (out.length + 1) + 1 := by omega
      rw [step, ih _ (by omega), longer, left, List.take_succ_cons, List.append_assoc, List.singleton_append]
    · have step : putChar size out c = out := if_neg fits
      have full : size - 1 - out.length = 0 := by omega
      rw [step, ih _ room, full, List.take_zero, List.take_zero]

/-- What `fish_path` leaves in the buffer: as much of the path as fits before the
terminator. -/
theorem Sound.fishPath_take (sound : Sound s) {size : UInt32} (room : 1 ≤ size.toNat) :
    fishPath s size = .ok (s.cwdPath.text.chars.take (size.toNat - 1) ++ [0]) := by
  obtain ⟨d, here, _, _, path⟩ := sound.cwd_path
  have nonzero : size ≠ 0 := by
    rintro rfl
    exact absurd room (by decide)
  rw [sound.fishPath_eq here path size nonzero]
  by_cases top : s.cwdPath = []
  · -- The root is written by its own branch, which tests the size once.
    have two : (2 : UInt32).toNat = 2 := rfl
    have slash : (Path.text []).chars = [47] := rfl
    rw [if_pos top, top, slash]
    by_cases wide : 2 ≤ size
    · have fits : 2 ≤ size.toNat := UInt32.le_iff_toNat_le.mp wide
      rw [if_pos wide, List.take_of_length_le (by simp; omega)]
      rfl
    · have small : ¬ 2 ≤ size.toNat := fun fits => wide (UInt32.le_iff_toNat_le.mpr fits)
      have one : size.toNat - 1 = 0 := by omega
      rw [if_neg wide, one]
      rfl
  · have start : ([] : List UInt8).length < size.toNat := room
    rw [if_neg top, putChars_take _ _ _ start, Path.text_inner top]
    rfl

/-- With room for the text and its terminator `fish_path` writes all of it. -/
theorem Sound.fishPath_room (sound : Sound s) {size : UInt32} (room : s.cwdPath.text.chars.length < size.toNat) :
    fishPath s size = .ok s.cwdPath.text.bytes := by
  rw [sound.fishPath_take (Nat.one_le_of_lt room), List.take_of_length_le (by omega)]
  rfl

private def parts (text : List UInt8) : List (List UInt8) := (text.splitOn 47).filter fun part => !part.isEmpty

private theorem parts_append (before behind : List UInt8) : parts (before ++ 47 :: behind) = parts before ++ parts behind := by
  rw [parts, List.splitOn_append_cons_of_beq _ _ (beq_self_eq_true 47), List.filter_append]
  rfl

private theorem parts_chars (valid : validName name = true) : parts name.chars = [name.chars] := by
  obtain ⟨positive, _, good, _⟩ := validName_spec valid
  have slash : 47 ∉ name.chars := fun member => (good 47 member).1 rfl
  have nonempty : name.chars ≠ [] := List.length_pos_iff.mp positive
  rw [parts, List.splitOn_eq_singleton slash]
  simp [nonempty]

private theorem parts_pathText (valid : ∀ name ∈ names, validName name = true) :
    parts (pathText names) = names.map CString.chars := by
  induction names with
  | nil => rfl
  | cons name rest ih =>
    obtain ⟨here, later⟩ := List.forall_mem_cons.mp valid
    have leading : ∀ text, parts (47 :: text) = parts text := fun text => parts_append [] text
    have first : parts (name.chars ++ pathText rest) = name.chars :: parts (pathText rest) := by
      cases rest with
      | nil =>
        change parts (name.chars ++ []) = _
        rw [List.append_nil]
        exact parts_chars here
      | cons next rest =>
        change parts (name.chars ++ 47 :: (next.chars ++ pathText rest)) = name.chars :: parts (47 :: (next.chars ++ pathText rest))
        rw [parts_append, parts_chars here, leading, List.singleton_append]
    calc parts (pathText (name :: rest))
        = parts (name.chars ++ pathText rest) := leading _
      _ = name.chars :: rest.map CString.chars := by rw [first, ih later]

theorem components_text (valid : ∀ name ∈ p, validName name = true) : components p.text.bytes = p.reverse := by
  have whole : CString.ofBytes p.text.bytes = p.text := by
    simpa using CString.ofBytes_append p.text []
  rw [components, whole]
  by_cases top : p = []
  · subst top
    rfl
  · have text := Path.text_inner top
    have cut := @parts_pathText p.reverse fun name member => valid name (List.mem_reverse.mp member)
    rw [parts] at cut
    rw [text, cut, List.map_map]
    exact (List.map_congr_left fun name _ => CString.ofBytes_chars name).trans (List.map_id _)

end Texts

section Walking

theorem chdirEach_cons {middle after : Fish} {code : FishCode} {codes : List FishCode}
    (entered : fishChdir s name = .ok (code, middle)) (walked : chdirEach middle rest = .ok (codes, after)) :
    chdirEach s (name :: rest) = .ok (code :: codes, after) := by
  simp [chdirEach, entered, walked]

/-- A directory is entered from its parent by its name. -/
theorem Sound.enter (sound : Sound s) (here : s.current = index d) (used : s.Used i) (under : s.Under i d) (dir : s.Dir i) :
    fishChdir s (s.nodes i).called = .ok (.ok, { s with current := index i }) := by
  have inner := sound.inner under
  obtain ⟨positive, _, good, one, two⟩ := validName_spec (sound.named i inner used).2
  have slash : (s.nodes i).called.chars ≠ [47] := fun same => (good 47 (same ▸ List.mem_cons_self)).1 rfl
  rcases sound.fishChdir_cases here (s.nodes i).called with ⟨empty, _⟩ | ⟨top, _⟩ | ⟨dot, _⟩ | ⟨dots, _⟩ |
    ⟨_, _, _, _, ⟨missing, _⟩ | ⟨j, found, case⟩⟩
  · rw [empty] at positive
    exact absurd positive (by decide)
  · exact absurd top slash
  · exact absurd dot one
  · exact absurd dots two
  · exact absurd ⟨used, under, rfl⟩ (Fish.child_none missing i)
  · obtain ⟨used', under', same⟩ := Fish.child_some found
    obtain rfl := sound.unique j i used' used (under'.trans under.symm) same
    rcases case with ⟨file, _⟩ | ⟨_, done⟩
    · exact absurd dir file
    · exact done

theorem Sound.path_named (sound : Sound s) (path : s.tree.Path 0 p i) : ∀ name ∈ p, validName name = true := by
  induction path with
  | root => exact fun name member => absurd member List.not_mem_nil
  | @child p d i above live parent ih =>
    have inner := sound.inner (Fish.tree_parent.mp parent)
    exact List.forall_mem_cons.mpr ⟨(sound.named i inner live).2, ih⟩

/-- From the root the names of a directory's path lead down to it, where the rest of a
walk may go on. -/
theorem Sound.descend (sound : Sound s) (path : s.tree.Path 0 p i) (dir : s.Dir i) :
    ∃ codes : List FishCode, (∀ code ∈ codes, code = .ok) ∧ ∀ rest codes' after,
      chdirEach { s with current := index i } rest = .ok (codes', after) →
        chdirEach { s with current := 0 } (p.reverse ++ rest) = .ok (codes ++ codes', after) := by
  induction path with
  | root => exact ⟨[], fun code member => absurd member List.not_mem_nil, fun rest codes after walked => walked⟩
  | @child p d i above live parent ih =>
    have under := Fish.tree_parent.mp parent
    have inner := sound.inner under
    obtain ⟨e, under', used, dir'⟩ := sound.linked i inner live
    obtain rfl := under'.unique under
    obtain ⟨codes, fine, lead⟩ := ih dir'
    refine ⟨codes ++ [.ok], List.forall_mem_append.mpr ⟨fine, List.forall_mem_singleton.mpr rfl⟩, fun rest codes' after walked => ?_⟩
    have entered := (sound.move used dir').enter rfl live under dir
    rw [List.reverse_cons, List.append_assoc, List.append_assoc]
    exact lead _ _ _ (chdirEach_cons entered walked)

theorem pathText_length (valid : ∀ name ∈ names, validName name = true) : (pathText names).length ≤ 32 * names.length := by
  induction names with
  | nil => exact Nat.le_refl 0
  | cons name rest ih =>
    obtain ⟨here, later⟩ := List.forall_mem_cons.mp valid
    have short : name.chars.length ≤ 31 := (validName_spec here).2.1
    have rest_short := ih later
    change (47 :: (name.chars ++ pathText rest)).length ≤ _
    simp only [List.length_cons, List.length_append]
    omega

/-- At most 63 names of at most 31 bytes, each after a slash: 2017 bytes always do. -/
theorem Sound.cwdText_short (sound : Sound s) : s.cwdPath.text.chars.length ≤ 2016 := by
  obtain ⟨d, _, _, _, path⟩ := sound.cwd_path
  have deep := path.length_lt_card sound.rooted
  rw [Fintype.card_fin] at deep
  by_cases top : s.cwdPath = []
  · rw [top]
    decide
  · have text := Path.text_inner top
    have short := pathText_length fun name member => sound.path_named path name (List.mem_reverse.mp member)
    rw [List.length_reverse] at short
    rw [text]
    simp only [fishMaxNodes] at deep
    omega

/-- `chdir` to the root and then to each component. -/
theorem Sound.leads_back (sound : Sound s) :
    ∃ codes, chdirEach s (rootName :: components s.cwdPath.text.bytes) = .ok (codes, s) ∧ ∀ code ∈ codes, code = .ok := by
  obtain ⟨d, here, _, dir, path⟩ := sound.cwd_path
  obtain ⟨codes, fine, lead⟩ := sound.descend path dir
  have back : ({ s with current := index d } : Fish) = s := by rw [← here]
  have walked := lead [] [] s (by rw [back]; rfl)
  rw [List.append_nil, List.append_nil] at walked
  rw [components_text (sound.path_named path)]
  exact ⟨.ok :: codes, chdirEach_cons (fishChdir_root s) walked, List.forall_mem_cons.mpr ⟨rfl, fine⟩⟩

end Walking

/-- On a sound tree `fish_path` fills no more than the buffer, with as much of the current
directory's path as fits and a terminator. Its walk up always reaches the root: more
room for it would find the same chain. -/
theorem fish_path_fills_buffer {s : Fish} (sound : Sound s) {size : UInt32} (room : 1 ≤ size.toNat) :
    (∃ out, fishPath s size = .ok out ∧ out.length ≤ size.toNat ∧
      out = s.cwdPath.text.chars.take (min s.cwdPath.text.chars.length (size.toNat - 1)) ++ [0] ∧
      (CString.ofBytes out).chars = s.cwdPath.text.chars.take (min s.cwdPath.text.chars.length (size.toNat - 1))) ∧
    ∃ chain, chain.map (fun i => (s.nodes i).called) = s.cwdPath ∧
      ∀ more, fishMaxNodes ≤ more → climb s more s.current = .ok chain := by
  constructor
  · have cut : s.cwdPath.text.chars.take (size.toNat - 1) =
        s.cwdPath.text.chars.take (min s.cwdPath.text.chars.length (size.toNat - 1)) := by
      rw [Nat.min_comm]
      exact List.take_eq_take_min
    have written := sound.fishPath_take room
    have whole : 0 ∉ s.cwdPath.text.chars.take (size.toNat - 1) :=
      fun member => s.cwdPath.text.terminated (List.mem_of_mem_take member)
    rw [← cut]
    refine ⟨_, written, ?_, rfl, ?_⟩
    · rw [List.length_append, List.length_take, List.length_singleton]
      omega
    · have back := CString.ofBytes_append ⟨_, whole⟩ []
      rw [CString.bytes, List.append_nil] at back
      rw [back]
  · obtain ⟨d, here, _, _, path⟩ := sound.cwd_path
    have short : s.cwdPath.length < fishMaxNodes := by
      have deep := path.length_lt_card sound.rooted
      rwa [Fintype.card_fin] at deep
    obtain ⟨chain, names, _, climbed⟩ := sound.climb_path path
    rw [here]
    exact ⟨chain, names, fun more enough => climbed more (Nat.le_of_lt (Nat.lt_of_lt_of_le short enough))⟩

theorem fish_path_fills_buffer_of_nested : ∃ s out, runCalls fishInit [.mkdir configFile, .chdir configFile] = .ok s ∧
    fishPath s 4 = .ok out ∧ out.length ≤ 4 := by
  obtain ⟨s, ran, valid⟩ := run_valid [.mkdir configFile, .chdir configFile] fishInit_valid
  obtain ⟨⟨out, written, short, _⟩, _⟩ := @fish_path_fills_buffer s valid.toSound 4 (by decide)
  exact ⟨s, out, ran, written, short⟩

/-- The components of what `fish_path` writes lead from the root back to the current
directory, from wherever the walk begins, so no two directories have the same path. -/
theorem fish_path_leads_back {s : Fish} (reached : Reached s) {size : UInt32}
    (room : s.cwdPath.text.chars.length < size.toNat) :
    (∃ out codes, fishPath s size = .ok out ∧ out = s.cwdPath.text.bytes ∧
      (∀ t : Fish, t.nodes = s.nodes → chdirEach t (rootName :: components out) = .ok (codes, s)) ∧ ∀ code ∈ codes, code = .ok) ∧
    ∀ (t : Fish) (size' : UInt32), Reached t → t.nodes = s.nodes → t.cwdPath.text.chars.length < size'.toNat →
      fishPath t size' = fishPath s size → t.current = s.current := by
  have sound := reached.valid.toSound
  obtain ⟨codes, walked, fine⟩ := sound.leads_back
  -- The first step goes to the root, so only the nodes matter to the walk.
  have anywhere : ∀ (t : Fish) names, t.nodes = s.nodes → chdirEach t (rootName :: names) = chdirEach s (rootName :: names) := by
    intro t names shared
    have start : ({ t with current := 0 } : Fish) = { s with current := 0 } := by rw [shared]
    rw [chdirEach, chdirEach, fishChdir_root, fishChdir_root, start]
  refine ⟨⟨_, codes, sound.fishPath_room room, rfl, fun t shared => (anywhere t _ shared).trans walked, fine⟩,
    fun t size' reached' shared room' same => ?_⟩
  have sound' := reached'.valid.toSound
  rw [sound.fishPath_room room, sound'.fishPath_room room'] at same
  obtain ⟨codes', walked', _⟩ := sound'.leads_back
  rw [Except.ok.inj same] at walked'
  have ends := walked'.symm.trans ((anywhere t _ shared).trans walked)
  exact congrArg Fish.current (Prod.mk.inj (Except.ok.inj ends)).2

/-- Out of `a/b` and back into it. -/
theorem fish_path_leads_back_of_nested :
    ∃ s out codes, runCalls fishInit [.mkdir ⟨[97], by decide⟩, .chdir ⟨[97], by decide⟩, .mkdir configFile, .chdir configFile] = .ok s ∧
      fishPath s 4096 = .ok out ∧ chdirEach { s with current := 0 } (rootName :: components out) = .ok (codes, s) ∧
      ∀ code ∈ codes, code = .ok := by
  obtain ⟨s, ran, valid⟩ := run_valid [.mkdir ⟨[97], by decide⟩, .chdir ⟨[97], by decide⟩, .mkdir configFile, .chdir configFile] fishInit_valid
  have short := valid.toSound.cwdText_short
  have size : (4096 : UInt32).toNat = 4096 := rfl
  obtain ⟨⟨out, codes, written, _, walked, fine⟩, _⟩ := @fish_path_leads_back s ⟨_, ran⟩ 4096 (by omega)
  exact ⟨s, out, codes, ran, written, walked { s with current := 0 } rfl, fine⟩

end Seaweed
