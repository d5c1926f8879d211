import Seaweed.Fish

/-! `kernel/user.c`: the names of the user and of the machine, and the file at the root
of the tree that keeps them. -/

namespace Seaweed

/-- What one of the arrays `name` and `host` holds up to its terminator. -/
@[ext]
structure UserName extends CString where
  short : chars.length ≤ 31

/-- The two static variables of `user.c`. -/
@[ext]
structure Users where
  name : UserName
  host : UserName

def UserName.cut (value : CString) : UserName where
  chars := value.chars.take 31
  terminated member := value.terminated (List.mem_of_mem_take member)
  short := List.length_take_le 31 _

/-- The whole value is checked, also the part that is cut off. -/
def setField (field : UserName) (value : CString) : Bool × UserName :=
  if value.chars = [] then (false, field)
  else if value.chars.any fun c => decide (signedChar c ≤ 32) then (false, field)
  else (true, UserName.cut value)

def userInit : Users where
  name := ⟨⟨[117, 115, 101, 114], by decide⟩, by decide⟩
  host := ⟨⟨[121, 117, 110, 105, 120], by decide⟩, by decide⟩

def userSetName (u : Users) (value : CString) : Bool × Users :=
  let (accepted, name) := setField u.name value
  (accepted, { u with name := name })

def userSetHost (u : Users) (value : CString) : Bool × Users :=
  let (accepted, host) := setField u.host value
  (accepted, { u with host := host })

def configFile : CString := ⟨[121, 115, 46, 99, 111, 110, 102], by decide⟩

def rootName : CString := ⟨[47], by decide⟩

theorem fishChdir_root (s : Fish) : fishChdir s rootName = .ok (.ok, { s with current := 0 }) := rfl

/-- The text of the file: each name on a line of its own. At most 64 characters, so it
stays inside the array `text`. -/
def Users.text (u : Users) : CString where
  chars := u.name.chars ++ [10] ++ u.host.chars ++ [10]
  terminated := by
    simp only [List.mem_append, List.mem_singleton, not_or]
    exact ⟨⟨⟨u.name.terminated, by decide⟩, u.host.terminated⟩, by decide⟩

/-- The answers of `fish_chdir` and `fish_create` are dropped. -/
def userSave (u : Users) (s : Fish) : Checked (Bool × Fish) := do
  let saved := fishSaveCwd s
  let (_, s) ← fishChdir s rootName
  let (_, s) ← fishCreate s configFile
  let (code, s) ← fishWrite s configFile u.text
  .ok (decide (code = .ok), fishRestoreCwd s saved)

/-- What the loop of `user_load` does with a line: the first is the user's name, the
second the host's. -/
def takeLine (u : Users) (line : ℕ) (field : List UInt8) : Users :=
  if field = [] then u
  else if line = 0 then { u with name := (setField u.name (CString.ofBytes (field ++ [0]))).2 }
  else if line = 1 then { u with host := (setField u.host (CString.ofBytes (field ++ [0]))).2 }
  else u

def scanLines (data : Buffer fishFileMax) (size : ℕ) : ℕ → ℕ → List UInt8 → ℕ → Users → Checked Users
  | 0, _, _, _, u => .ok u
  | left + 1, i, field, line, u => do
    let c ← if i = size then .ok 10
      else if inside : i < fishFileMax then .ok (data ⟨i, inside⟩) else .error .data
    if c ≠ 10 then scanLines data size left (i + 1) (if field.length < 31 then field ++ [c] else field) line u
    else if 1 < line + 1 then .ok (takeLine u line field)
    else scanLines data size left (i + 1) [] (line + 1) (takeLine u line field)

def userLoad (u : Users) (s : Fish) : Checked (Bool × Users × Fish) := do
  let saved := fishSaveCwd s
  let (_, s) ← fishChdir s rootName
  let found ← fishRead s configFile
  let s := fishRestoreCwd s saved
  match found with
  | none => .ok (false, u, s)
  | some (size, data) => do
    let u ← scanLines data size.toNat (size.toNat + 1) 0 [] 0 u
    .ok (true, u, s)

/-- The calls that change the names. `user_load` is given with the tree it reads. -/
inductive UserCall where
  | setName (value : CString)
  | setHost (value : CString)
  | load (s : Fish)

def UserCall.run (u : Users) : UserCall → Checked Users
  | .setName value => .ok (userSetName u value).2
  | .setHost value => .ok (userSetHost u value).2
  | .load s => do
    let (_, u, _) ← userLoad u s
    .ok u

def runUserCalls (u : Users) (calls : List UserCall) : Checked Users := calls.foldlM UserCall.run u

end Seaweed
