import Seaweed.Fish

/-! What Fish is for, stated without slots or parent links: a finite map from paths to
directories and files, a current directory, and room for 63 entries besides the root.
A path lists its names innermost first, so the root is `[]`. -/

namespace Seaweed

abbrev Path := List CString

inductive Content where
  | dir
  | file (bytes : List UInt8)
deriving DecidableEq

/-- A name an entry may carry: 1 to 31 printable bytes without a slash, not `.` or `..`. -/
def Nameable (name : CString) : Prop :=
  (1 ≤ name.chars.length ∧ name.chars.length ≤ 31) ∧ (∀ c ∈ name.chars, 33 ≤ c ∧ c ≤ 127 ∧ c ≠ 47) ∧
    name.chars ≠ [46] ∧ name.chars ≠ [46, 46]

instance (name : CString) : Decidable (Nameable name) := inferInstanceAs (Decidable (_ ∧ _))

/-- The paths of the entries besides the root. -/
def occupied (entries : Path → Option Content) : Set Path := {p | p ≠ [] ∧ entries p ≠ none}

@[ext]
structure FileTree where
  entries : Path → Option Content
  cwd : Path
  top : entries [] = some .dir
  closed : ∀ name p, entries (name :: p) ≠ none → entries p = some .dir ∧ Nameable name
  here : entries cwd = some .dir
  finite : (occupied entries).Finite
  capacity : (occupied entries).ncard ≤ 63

namespace FileTree

variable (t : FileTree) (name : CString)

noncomputable def count : ℕ := (occupied t.entries).ncard

theorem count_le : t.count ≤ 63 := t.capacity

def look : Option Content := t.entries (name :: t.cwd)

theorem look_named {t : FileTree} {name : CString} (taken : t.look name ≠ none) : Nameable name :=
  (t.closed name t.cwd taken).2

theorem child_ne_cwd : name :: t.cwd ≠ t.cwd := List.cons_ne_self name t.cwd

/-- Puts a file, or a fresh entry, under a name of the current directory. -/
noncomputable def put (content : Content) (named : Nameable name) (safe : t.look name ≠ some .dir)
    (room : t.look name ≠ none ∨ t.count < 63) : FileTree where
  entries := Function.update t.entries (name :: t.cwd) (some content)
  cwd := t.cwd
  top := by
    rw [Function.update_of_ne (List.cons_ne_nil name t.cwd).symm]
    exact t.top
  closed := by
    intro other p holds
    by_cases place : other :: p = name :: t.cwd
    · obtain ⟨rfl, rfl⟩ := List.cons.inj place
      rw [Function.update_of_ne (t.child_ne_cwd other).symm]
      exact ⟨t.here, named⟩
    · rw [Function.update_of_ne place] at holds
      have old := t.closed other p holds
      have apart : p ≠ name :: t.cwd := by
        rintro rfl
        exact safe old.1
      rw [Function.update_of_ne apart]
      exact old
  here := by
    rw [Function.update_of_ne (t.child_ne_cwd name).symm]
    exact t.here
  finite := by
    refine (t.finite.insert (name :: t.cwd)).subset ?_
    rintro p ⟨inner, holds⟩
    by_cases place : p = name :: t.cwd
    · exact .inl place
    · exact .inr ⟨inner, by rwa [Function.update_of_ne place] at holds⟩
  capacity := by
    have covered : occupied (Function.update t.entries (name :: t.cwd) (some content)) ⊆
        insert (name :: t.cwd) (occupied t.entries) := by
      rintro p ⟨inner, holds⟩
      by_cases place : p = name :: t.cwd
      · exact .inl place
      · exact .inr ⟨inner, by rwa [Function.update_of_ne place] at holds⟩
    have bound := Set.ncard_le_ncard covered (t.finite.insert _)
    rcases room with old | free
    · have member : name :: t.cwd ∈ occupied t.entries := ⟨List.cons_ne_nil _ _, old⟩
      rw [Set.insert_eq_of_mem member] at bound
      exact bound.trans t.capacity
    · have grown := Set.ncard_insert_le (name :: t.cwd) (occupied t.entries)
      have : (occupied t.entries).ncard < 63 := free
      omega

section Put

variable {name} {content : Content} {named : Nameable name} {safe : t.look name ≠ some .dir}
  {room : t.look name ≠ none ∨ t.count < 63}

@[simp] theorem put_entries : (t.put name content named safe room).entries =
    Function.update t.entries (name :: t.cwd) (some content) := rfl

@[simp] theorem put_cwd : (t.put name content named safe room).cwd = t.cwd := rfl

end Put

/-- Takes an entry with nothing under it out of the current directory. -/
noncomputable def erase (empty : ∀ inner, t.entries (inner :: name :: t.cwd) = none) : FileTree where
  entries := Function.update t.entries (name :: t.cwd) none
  cwd := t.cwd
  top := by
    rw [Function.update_of_ne (List.cons_ne_nil name t.cwd).symm]
    exact t.top
  closed := by
    intro other p holds
    by_cases place : other :: p = name :: t.cwd
    · rw [place, Function.update_self] at holds
      exact absurd rfl holds
    · rw [Function.update_of_ne place] at holds
      have apart : p ≠ name :: t.cwd := by
        rintro rfl
        exact holds (empty other)
      rw [Function.update_of_ne apart]
      exact t.closed other p holds
  here := by
    rw [Function.update_of_ne (t.child_ne_cwd name).symm]
    exact t.here
  finite := t.finite.subset fun p ⟨inner, holds⟩ => by
    by_cases place : p = name :: t.cwd
    · rw [place, Function.update_self] at holds
      exact absurd rfl holds
    · exact ⟨inner, by rwa [Function.update_of_ne place] at holds⟩
  capacity := by
    refine (Set.ncard_le_ncard ?_ t.finite).trans t.capacity
    rintro p ⟨inner, holds⟩
    by_cases place : p = name :: t.cwd
    · rw [place, Function.update_self] at holds
      exact absurd rfl holds
    · exact ⟨inner, by rwa [Function.update_of_ne place] at holds⟩

section Erase

variable {name} {empty : ∀ inner, t.entries (inner :: name :: t.cwd) = none}

@[simp] theorem erase_entries : (t.erase name empty).entries = Function.update t.entries (name :: t.cwd) none := rfl

@[simp] theorem erase_cwd : (t.erase name empty).cwd = t.cwd := rfl

end Erase

def enter (p : Path) (dir : t.entries p = some .dir) : FileTree := { t with cwd := p, here := dir }

theorem above_dir : t.entries t.cwd.tail = some .dir := by
  cases place : t.cwd with
  | nil => exact t.top
  | cons name p =>
    have here := t.here
    rw [place] at here
    exact (t.closed name p (by simp [here])).1

open Classical in
/-- Adds an empty directory or file: a bad name, a taken name and a full tree are
refused, in this order. -/
noncomputable def add (content : Content) : FishCode × FileTree :=
  if named : Nameable name then
    if taken : t.look name ≠ none then (.exists, t)
    else if full : t.count = 63 then (.full, t)
    else (.ok, t.put name content named (fun dir => taken (by simp [dir]))
      (.inr (lt_of_le_of_ne t.count_le full)))
  else (.name, t)

/-- Without a free name and room for it the tree stays as it is. -/
theorem add_refused {t : FileTree} {name : CString} {content : Content}
    (refused : ¬ (t.look name = none ∧ t.count < 63)) : (t.add name content).2 = t := by
  unfold add
  split
  next =>
    split
    next => rfl
    next missing =>
      split
      next => rfl
      next full => exact absurd ⟨not_not.mp missing, lt_of_le_of_ne t.count_le full⟩ refused
  next => rfl

noncomputable def mkdir : FishCode × FileTree := t.add name .dir

noncomputable def create : FishCode × FileTree := t.add name (.file [])

def chdir : FishCode × FileTree :=
  if name.chars = [47] then (.ok, t.enter [] t.top)
  else if name.chars = [46] then (.ok, t)
  else if name.chars = [46, 46] then (.ok, t.enter t.cwd.tail t.above_dir)
  else match found : t.look name with
    | none => (.noent, t)
    | some (.file _) => (.notdir, t)
    | some .dir => (.ok, t.enter (name :: t.cwd) found)

open Classical in
noncomputable def remove : FishCode × FileTree :=
  if t.look name = none then (.noent, t)
  else if empty : ∀ inner, t.entries (inner :: name :: t.cwd) = none then (.ok, t.erase name empty)
  else (.notempty, t)

/-- Gives the file under a name new bytes, computed from the old ones. -/
noncomputable def edit (change : List UInt8 → List UInt8) : FishCode × FileTree :=
  match found : t.look name with
  | none => (.noent, t)
  | some .dir => (.isdir, t)
  | some (.file old) =>
    if 512 < (change old).length then (.space, t)
    else (.ok, t.put name (.file (change old)) (look_named (t := t) (by simp [found]))
      (fun dir => by cases found.symm.trans dir) (.inl (by simp [found])))

noncomputable def write (text : List UInt8) : FishCode × FileTree := t.edit name fun _ => text

noncomputable def append (text : List UInt8) : FishCode × FileTree := t.edit name fun old => old ++ text

def read : Option (List UInt8) :=
  match t.look name with
  | some (.file bytes) => some bytes
  | _ => none

end FileTree
end Seaweed
