import Seaweed.CString
import Seaweed.Library.Runs

/-! The RAM half of `fs/fish.c`: the node array, the current directory and every
operation on them. An access outside an object of C is a `Fault`, so an operation
that answers `.ok` has stayed inside `nodes`, `name` and `data`. -/

namespace Seaweed

abbrev fishNameMax : Nat := 32
abbrev fishMaxNodes : Nat := 64
abbrev fishFileMax : Nat := 512

instance : NeZero fishNameMax := ⟨by decide⟩
instance : NeZero fishMaxNodes := ⟨by decide⟩

/-- The return codes of `include/fish.h`. -/
inductive FishCode where
  | ok | exists | notdir | noent | full | name | isdir | notempty | space | nodisk | io | format
deriving DecidableEq

def FishCode.value : FishCode → Int
  | .ok => 0 | .exists => -1 | .notdir => -2 | .noent => -3 | .full => -4 | .name => -5
  | .isdir => -6 | .notempty => -7 | .space => -8 | .nodisk => -9 | .io => -10 | .format => -11

theorem FishCode.value_neg_iff (code : FishCode) : code.value < 0 ↔ code ≠ .ok := by
  cases code <;> decide

/-- The object an index has left. -/
inductive Fault where
  | nodes | name | data
deriving DecidableEq

abbrev Checked (α : Type) := Except Fault α

@[simp] theorem Checked.pure_eq {α : Type} (value : α) : (pure value : Checked α) = .ok value := rfl

def Checked.ofOption {α : Type} (fault : Fault) : Option α → Checked α
  | none => .error fault
  | some value => .ok value

@[simp] theorem Checked.ofOption_some {α : Type} (fault : Fault) (value : α) :
    Checked.ofOption fault (some value) = .ok value := rfl

@[ext]
structure Node where
  name : Buffer fishNameMax
  used : Int32
  isDir : Int32
  parent : Int32
  size : UInt32
  data : Buffer fishFileMax

/-- The two static variables of `fish.c`. -/
@[ext]
structure Fish where
  nodes : Fin fishMaxNodes → Node
  current : Int32

def Fish.set (s : Fish) (index : Fin fishMaxNodes) (node : Node) : Fish :=
  { s with nodes := Function.update s.nodes index node }

/-- `nodes[i]` for an `int` index. -/
def slot (i : Int32) : Checked (Fin fishMaxNodes) :=
  if inside : 0 ≤ i.toInt ∧ i.toInt < fishMaxNodes then .ok ⟨i.toInt.toNat, by omega⟩
  else .error .nodes

/-- A slot number as the `int` the code keeps in `parent` and `current`. -/
def index (i : Fin fishMaxNodes) : Int32 := Int32.ofNat i

/-- The test on each character, and on its position, that `valid_name` makes. -/
def validChars (i : Nat) : List UInt8 → Bool
  | [] => true
  | c :: rest =>
    if fishNameMax - 1 ≤ i then false
    else if c = 47 ∨ signedChar c ≤ 32 then false
    else validChars (i + 1) rest

def validName (name : CString) : Bool :=
  if name.chars = [] then false
  else if !validChars 0 name.chars then false
  else if name.chars = [46] then false
  else if name.chars = [46, 46] then false
  else true

def findChildIn (s : Fish) (parent : Int32) (name : CString) :
    List (Fin fishMaxNodes) → Checked (Option (Fin fishMaxNodes))
  | [] => .ok none
  | i :: rest =>
    if (s.nodes i).used = 0 then findChildIn s parent name rest
    else if (s.nodes i).parent ≠ parent then findChildIn s parent name rest
    else do
      let order ← Checked.ofOption .name (strcmp (s.nodes i).name.bytes name.bytes)
      if order = 0 then .ok (some i) else findChildIn s parent name rest

def findChild (s : Fish) (parent : Int32) (name : CString) : Checked (Option (Fin fishMaxNodes)) :=
  findChildIn s parent name (List.finRange fishMaxNodes)

def allocate (s : Fish) : Option (Fin fishMaxNodes) :=
  (List.finRange fishMaxNodes).find? fun i => decide (1 ≤ i.val) && decide ((s.nodes i).used = 0)

def makeNode (s : Fish) (name : CString) (isDir : Int32) :
    Checked (Except FishCode (Fin fishMaxNodes) × Fish) :=
  if !validName name then .ok (.error .name, s)
  else do
    let found ← findChild s s.current name
    if found.isSome then .ok (.error .exists, s)
    else
      match allocate s with
      | none => .ok (.error .full, s)
      | some i => do
        let field ← Checked.ofOption .name (strcpy (s.nodes i).name name)
        .ok (.ok i, s.set i { s.nodes i with
          name := field, used := 1, isDir := isDir, parent := s.current, size := 0 })

def Node.zero : Node where
  name := fun _ => 0
  used := 0
  isDir := 0
  parent := 0
  size := 0
  data := fun _ => 0

/-- The root as `fish_init` fills it in, named `"/"`. -/
def Node.root : Node :=
  { Node.zero with
    name := Function.update Node.zero.name 0 47, used := 1, isDir := 1, parent := -1, size := 0 }

def fishInit : Fish where
  nodes := Function.update (fun _ => Node.zero) 0 Node.root
  current := 0

def resultCode : Except FishCode (Fin fishMaxNodes) → FishCode
  | .error code => code
  | .ok _ => .ok

def fishMkdir (s : Fish) (name : CString) : Checked (FishCode × Fish) := do
  let (result, after) ← makeNode s name 1
  .ok (resultCode result, after)

def fishCreate (s : Fish) (name : CString) : Checked (FishCode × Fish) := do
  let (result, after) ← makeNode s name 0
  .ok (resultCode result, after)

def fishChdir (s : Fish) (name : CString) : Checked (FishCode × Fish) :=
  if name.chars = [] then .ok (.noent, s)
  else if name.chars = [47] then .ok (.ok, { s with current := 0 })
  else if name.chars = [46] then .ok (.ok, s)
  else if name.chars = [46, 46] then do
    let here ← slot s.current
    if 0 ≤ (s.nodes here).parent.toInt then .ok (.ok, { s with current := (s.nodes here).parent })
    else .ok (.ok, s)
  else do
    match ← findChild s s.current name with
    | none => .ok (.noent, s)
    | some i =>
      if (s.nodes i).isDir = 0 then .ok (.notdir, s)
      else .ok (.ok, { s with current := index i })

def hasChild (s : Fish) (parent : Int32) : Bool :=
  (List.finRange fishMaxNodes).any fun i =>
    decide ((s.nodes i).used ≠ 0) && decide ((s.nodes i).parent = parent)

def fishRemove (s : Fish) (name : CString) : Checked (FishCode × Fish) := do
  match ← findChild s s.current name with
  | none => .ok (.noent, s)
  | some i =>
    if (s.nodes i).isDir ≠ 0 ∧ hasChild s (index i) then .ok (.notempty, s)
    else .ok (.ok, s.set i { s.nodes i with used := 0 })

/-- The length of a text as the `size_t` that `strlen` returns. -/
def sizeOf (text : CString) : UInt32 := UInt32.ofNat text.chars.length

/-- A text as a caller holds it in memory, shorter than 2 GiB. -/
structure Text extends CString where
  short : chars.length < 2 ^ 31

def fishWrite (s : Fish) (name text : CString) : Checked (FishCode × Fish) := do
  match ← findChild s s.current name with
  | none => .ok (.noent, s)
  | some i =>
    if (s.nodes i).isDir ≠ 0 then .ok (.isdir, s)
    else if 512 < sizeOf text then .ok (.space, s)
    else do
      let data ← Checked.ofOption .data (memcpy (s.nodes i).data 0 (text.chars.take (sizeOf text).toNat))
      .ok (.ok, s.set i { s.nodes i with data := data, size := sizeOf text })

def fishAppend (s : Fish) (name text : CString) : Checked (FishCode × Fish) := do
  match ← findChild s s.current name with
  | none => .ok (.noent, s)
  | some i =>
    if (s.nodes i).isDir ≠ 0 then .ok (.isdir, s)
    -- The sum is taken in 32 bits and can wrap when the size is not a real one.
    else if 512 < (s.nodes i).size + sizeOf text then .ok (.space, s)
    else do
      let data ← Checked.ofOption .data
        (memcpy (s.nodes i).data (s.nodes i).size.toNat (text.chars.take (sizeOf text).toNat))
      .ok (.ok, s.set i { s.nodes i with data := data, size := (s.nodes i).size + sizeOf text })

/-- The size and the data that `fish_read` hands out, `none` for its `NULL`. -/
def fishRead (s : Fish) (name : CString) : Checked (Option (UInt32 × Buffer fishFileMax)) := do
  match ← findChild s s.current name with
  | none => .ok none
  | some i =>
    if (s.nodes i).isDir ≠ 0 then .ok none else .ok (some ((s.nodes i).size, (s.nodes i).data))

/-- A listing handle: what `fish_first` and `fish_next` return. -/
abbrev Handle := Fin (fishMaxNodes + 1)

def fishFirst : Handle := 0

structure Entry where
  slot : Fin fishMaxNodes
  name : Buffer fishNameMax
  isDir : Int32
  size : UInt32

/-- The next child of the current directory at or after the handle, and the handle to
carry on from; handle 0 ends the listing. -/
def fishNext (s : Fish) (handle : Handle) : Option Entry × Handle :=
  match (List.finRange fishMaxNodes).find? fun i =>
      decide (handle.val ≤ i.val) && decide ((s.nodes i).used ≠ 0) &&
        decide ((s.nodes i).parent = s.current) with
  | some i => (some ⟨i, (s.nodes i).name, (s.nodes i).isDir, (s.nodes i).size⟩, i.succ)
  | none => (none, 0)

def fishSaveCwd (s : Fish) : Int32 := s.current

def fishRestoreCwd (s : Fish) (handle : Int32) : Fish :=
  match slot handle with
  | .ok i =>
    if (s.nodes i).used ≠ 0 ∧ (s.nodes i).isDir ≠ 0 then { s with current := handle }
    else { s with current := 0 }
  | .error _ => { s with current := 0 }

/-- The walk of `fish_path` to the root, with the room left in `chain`. -/
def climb (s : Fish) : Nat → Int32 → Checked (List (Fin fishMaxNodes))
  | 0, _ => .ok []
  | room + 1, node =>
    if 0 < node.toInt then do
      let i ← slot node
      let rest ← climb s room (s.nodes i).parent
      .ok (i :: rest)
    else .ok []

/-- `if (pos + 1 < size) buffer[pos++] = c`, where `out` is `buffer[0..pos-1]`. -/
def putChar (size : Nat) (out : List UInt8) (c : UInt8) : List UInt8 :=
  if out.length + 1 < size then out ++ [c] else out

def putName (size : Nat) (out : List UInt8) : List UInt8 → Checked (List UInt8)
  | [] => .error .name
  | c :: rest => if c = 0 then .ok out else putName size (putChar size out c) rest

def fishPath (s : Fish) (size : UInt32) : Checked (List UInt8) :=
  if size = 0 then .ok []
  else do
    let chain ← climb s fishMaxNodes s.current
    if chain = [] then .ok (if 2 ≤ size then [47, 0] else [0])
    else do
      let out ← chain.reverse.foldlM
        (fun out i => putName size.toNat (putChar size.toNat out 47) (s.nodes i).name.bytes) []
      .ok (out ++ [0])

/-- The public calls of `fish.h` other than `fish_load`. -/
inductive FishCall where
  | init | first | saveCwd | save
  | mkdir (name : CString)
  | create (name : CString)
  | chdir (name : CString)
  | remove (name : CString)
  | write (name : CString) (text : Text)
  | append (name : CString) (text : Text)
  | read (name : CString)
  | next (handle : Handle)
  | restoreCwd (handle : Int32)
  | path (size : UInt32)

/-- The tree after a call. `fish_save`, the listing, `fish_read`, `fish_path` and
`fish_save_cwd` only look at it. -/
def FishCall.run (s : Fish) : FishCall → Checked Fish
  | .init => .ok fishInit
  | .first | .saveCwd | .save | .next _ => .ok s
  | .mkdir name => do .ok (← fishMkdir s name).2
  | .create name => do .ok (← fishCreate s name).2
  | .chdir name => do .ok (← fishChdir s name).2
  | .remove name => do .ok (← fishRemove s name).2
  | .write name text => do .ok (← fishWrite s name text.toCString).2
  | .append name text => do .ok (← fishAppend s name text.toCString).2
  | .read name => do
    let _ ← fishRead s name
    .ok s
  | .restoreCwd handle => .ok (fishRestoreCwd s handle)
  | .path size => do
    let _ ← fishPath s size
    .ok s

/-- The calls that work on the entries of the current directory. -/
def FishCall.edits : FishCall → Bool
  | .mkdir _ | .create _ | .remove _ | .write _ _ | .append _ _ => true
  | _ => false

def runCalls (s : Fish) (calls : List FishCall) : Checked Fish := calls.foldlM FishCall.run s

/-- The states that calls of Fish lead to from `fish_init`. -/
def Reached (s : Fish) : Prop := ∃ calls, runCalls fishInit calls = .ok s

end Seaweed
