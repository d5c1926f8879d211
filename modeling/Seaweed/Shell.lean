import Seaweed.FishDisk
import Seaweed.User

/-! The commands of `kernel/shell.c` that move the tree to the disk and back, and the
part of `kernel_main` that starts the system. A command's output is the list of the
strings it writes, colours left out. -/

namespace Seaweed

def fishError : FishCode → String
  | .ok => "ok"
  | .exists => "already exists"
  | .notdir => "not a directory"
  | .noent => "no such file or directory"
  | .full => "filesystem is full"
  | .name => "bad name"
  | .isdir => "is a directory"
  | .notempty => "directory is not empty"
  | .space => "file is too big"
  | .nodisk => "no disk found"
  | .io => "disk error"
  | .format => "disk holds no valid Fish image"

def fishFail (cmd : String) (code : FishCode) : List String := [cmd, ": ", fishError code, "\n"]

section Commands

variable {σ : Type} (ata : Ata σ)

/-- What `user_save` answers is dropped. -/
def cmdSave (u : Users) (s : Fish) (d : σ) : Checked (List String × Fish × σ) := do
  let (_, s) ← userSave u s
  let (result, d) := fishSave ata s d
  if result.value < 0 then .ok (fishFail "save" result, s, d)
  else .ok (["Filesystem written to disk.\n"], s, d)

def cmdLoad (s : Fish) (d : σ) : List String × Fish × σ :=
  let (result, s, d) := fishLoad ata s d
  if result.value < 0 then (fishFail "load" result, s, d)
  else (["Filesystem restored from disk.\n"], s, d)

/-- `kernel_main` from `user_init` on, up to the shell. -/
def boot (d : σ) : Checked (Users × Fish × σ) := do
  let u := userInit
  let s := fishInit
  let (found, d) := ata.init d
  if found then
    let (result, s, d) := fishLoad ata s d
    if result = .ok then
      let (_, u, s) ← userLoad u s
      .ok (u, s, d)
    else .ok (u, s, d)
  else .ok (u, s, d)

end Commands

end Seaweed
