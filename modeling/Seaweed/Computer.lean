import Seaweed.Kernel
import Seaweed.Proofs.FileCommands
import Seaweed.Proofs.NumericArguments
import Seaweed.Proofs.UserLines

/-! What the kernel is for, without slots, links, buffers or sectors: a tree of files, the
two names, an image on the disk, the line being typed and the keys not yet read. -/

namespace Seaweed

namespace FileTree

/-- Nothing but the root. -/
def bare : FileTree where
  entries p := if p = [] then some .dir else none
  cwd := []
  top := rfl
  closed := by
    intro name p holds
    rw [if_neg (List.cons_ne_nil name p)] at holds
    exact absurd rfl holds
  here := rfl
  finite := by
    refine Set.finite_empty.subset ?_
    rintro p ⟨inner, holds⟩
    exact holds (if_neg inner)
  capacity := by
    have none : occupied (fun p : Path => if p = [] then some Content.dir else none) = ∅ := by
      refine Set.eq_empty_of_forall_notMem ?_
      rintro p ⟨inner, holds⟩
      exact holds (if_neg inner)
    rw [none, Set.ncard_empty]
    exact Nat.zero_le _

/-- Back to a directory, or to the root when it is none. -/
def returnTo (t : FileTree) (p : Path) : FileTree := if dir : t.entries p = some .dir then t.enter p dir else t.enter [] t.top

/-- The names go into their file at the root, which is made when it is missing. -/
noncomputable def keepNames (t : FileTree) (u : Users) : FileTree :=
  (((t.enter [] t.top).create configFile).2.write configFile u.text.chars).2.returnTo t.cwd

/-- The names that the file at the root gives to a kernel that starts. -/
def names (t : FileTree) : Users :=
  match t.entries [configFile] with
  | some (.file content) => readLines userInit (content.splitOn 10)
  | _ => userInit

end FileTree

/-- What `fish_load` makes of a disk: it finds no superblock of its own, or no root, or a tree. -/
inductive Image where
  | unknown
  | rootless
  | tree (t : FileTree)

/-- What outlives a command. -/
structure ShellState where
  users : Users
  tree : FileTree
  attached : Bool
  image : Image

/-- The arguments of `color` that have no answer. -/
def Overflows (arg : CString) : Prop := ¬ decimalValue (arg.chars.takeWhile isDigit) < 2 ^ 31

instance (arg : CString) : Decidable (Overflows arg) := inferInstanceAs (Decidable (¬ _))

namespace ShellState

def start (t : ShellState) : ShellState :=
  match t.attached, t.image with
  | true, .tree tree => { t with users := tree.names, tree := tree }
  | _, _ => { t with users := userInit, tree := .bare }

/-- A new name is stored at once, when it is accepted. -/
noncomputable def rename (t : ShellState) (arg : CString) (set : Users → CString → Bool × Users) : ShellState :=
  if arg.chars = [] then t
  else
    match set t.users arg with
    | (false, _) => t
    | (true, users) => { t with users := users, tree := t.tree.keepNames users }

noncomputable def save (t : ShellState) (tree : FileTree) : ShellState :=
  { t with tree := tree, image := if t.attached then .tree tree else t.image }

def load (t : ShellState) : ShellState :=
  match t.attached, t.image with
  | true, .tree tree => { t with tree := tree }
  | true, .rootless => { t with tree := .bare }
  | _, _ => t

noncomputable def run (t : ShellState) (arg : CString) : CommandFn → ShellState
  | .cd => { t with tree := if arg.chars = [] then t.tree.enter [] t.tree.top else (t.tree.chdir arg).2 }
  | .mkdir => { t with tree := (t.tree.mkdir arg).2 }
  | .touch => { t with tree := (t.tree.create arg).2 }
  | .rm => { t with tree := (t.tree.remove arg).2 }
  | .write => { t with tree := (t.tree.write arg.cutWord arg.cutText.chars).2 }
  | .append => { t with tree := (t.tree.append arg.cutWord arg.cutText.chars).2 }
  | .save => t.save (t.tree.keepNames t.users)
  | .load => t.load
  | .format => t.save .bare
  | .user => t.rename arg userSetName
  | .hostname => t.rename arg userSetHost
  | _ => t

/-- A whole line, with the flag for a command that never returns. It has no outcome when its
command has none. -/
noncomputable def line (t : ShellState) (text : CString) : Option (ShellState × Bool) :=
  if text.firstWord.chars = [] then some (t, false)
  else
    match commands.find? fun row => text.firstWord = literal row.name with
    | none => some (t, false)
    | some row =>
      if row.run = .color ∧ Overflows text.afterWord then none
      else some (t.run text.afterWord row.run, decide (row.run = .reboot ∨ row.run = .halt))

end ShellState

/-- The keys that change what the others mean. -/
@[ext]
structure Decoder where
  shift : Bool
  caps : Bool
  extended : Bool
deriving DecidableEq

namespace Decoder

def start : Decoder := ⟨false, false, false⟩

/-- The key that a byte from the keyboard completes. -/
def feed (d : Decoder) (byte : UInt8) : Decoder × Option Int32 :=
  if byte = 0xE0 then ({ d with extended := true }, none)
  else if d.extended then
    ({ d with extended := false }, if byte &&& 0x80 ≠ 0 then none else extendedKey byte)
  else if byte &&& 0x80 ≠ 0 then
    (if byte &&& 0x7F = 0x2A ∨ byte &&& 0x7F = 0x36 then { d with shift := false } else d, none)
  else if byte = 0x2A ∨ byte = 0x36 then ({ d with shift := true }, none)
  else if byte = 0x3A then ({ d with caps := !d.caps }, none)
  else
    let c := (if d.shift then keymapShift else keymap).getD byte.toNat 0
    (d, if c = 0 then none else some (Int32.ofNat (if d.caps then flipCase c else c).toNat))

end Decoder

structure Computer where
  session : ShellState
  decoder : Decoder
  waiting : List Int32
  held : List UInt8
  stopped : Bool

namespace Computer

def start (t : ShellState) : Computer := ⟨t.start, .start, [], [], false⟩

/-- 127 keys wait at most. -/
def queue (waiting : List Int32) : Option Int32 → List Int32
  | none => waiting
  | some key => if waiting.length < 127 then waiting ++ [key] else waiting

/-- The line that the next turn of the loop completes. -/
def ready (c : Computer) : Option CString :=
  if c.stopped = false ∧ c.waiting.head? = some 10 then some (CString.ofBytes c.held) else none

noncomputable def poll (c : Computer) : Option Computer :=
  match c.waiting with
  | [] => some c
  | key :: rest =>
    if key = 10 then do
      let (session, ended) ← c.session.line (CString.ofBytes c.held)
      some { c with session := session, waiting := rest, held := [], stopped := ended }
    else some { c with waiting := rest, held := editKey c.held key }

noncomputable def step (c : Computer) : Input → Option Computer
  | .power => some (start c.session)
  | .tick => some c
  | .scancode byte =>
    if c.stopped then some c
    else
      let (decoder, key) := c.decoder.feed byte
      some { c with decoder := decoder, waiting := queue c.waiting key }
  | .poll => if c.stopped then some c else c.poll

noncomputable def run (c : Computer) (inputs : List Input) : Option Computer := inputs.foldlM step c

end Computer
end Seaweed
