import Seaweed.Numerals
import Seaweed.ReadLine
import Seaweed.Shell
import Seaweed.Timer

/-! The commands of `kernel/shell.c` and `execute`, which cuts a line into a command and
its argument. What a command does to the screen, the timer and the CPU is a list of
events, in the order of the calls. -/

namespace Seaweed

inductive Event where
  | write (text : String)
  | chars (text : List UInt8)
  | color (foreground background : UInt8)
  | clear
  | sleep (ms : UInt32)
  | reboot
  | halt
deriving DecidableEq

/-- What a run of C must not do: leave an object or let an `int` overflow. -/
inductive Undefined where
  | fault (fault : Fault)
  | line
  | numeral
  | overflow
deriving DecidableEq

abbrev Ran (α : Type) := Except Undefined α

def Ran.ofChecked {α : Type} : Checked α → Ran α
  | .error fault => .error (.fault fault)
  | .ok value => .ok value

@[simp] theorem Ran.ofChecked_ok {α : Type} (value : α) : Ran.ofChecked (.ok value : Checked α) = .ok value := rfl

def Ran.ofOption {α : Type} (wrong : Undefined) : Option α → Ran α
  | none => .error wrong
  | some value => .ok value

@[simp] theorem Ran.ofOption_some {α : Type} (wrong : Undefined) (value : α) :
    Ran.ofOption wrong (some value) = .ok value := rfl

/-- An `int` that a signed operation gives. -/
def Ran.int (value : ℤ) : Ran ℤ := if -2 ^ 31 ≤ value ∧ value < 2 ^ 31 then .ok value else .error .overflow

/-- What the shell works on. `ticks` is what the timer interrupts have counted to. -/
structure Machine (σ : Type) where
  users : Users
  fish : Fish
  disk : σ
  ticks : UInt32

/-- `utoa` into an array of 12 bytes, in base 10. -/
def numeral (value : UInt32) : Ran (List UInt8) := do
  let buffer ← Ran.ofOption .numeral (utoa value (fun _ => 0 : Buffer 12) 10)
  .ok (CString.ofBytes buffer.bytes).chars

def newline : Event := .chars [10]

def failed (cmd : String) (code : FishCode) : List Event := (fishFail cmd code).map .write

section Texts

def cmdClear : List Event := [.clear]

def cmdEcho (arg : CString) : List Event := [.chars arg.chars, newline]

def cmdNeofetch : List Event :=
  [.write "\xDB\xDB\xBB   \xDB\xDB\xBB\xDB\xDB\xDB\xDB\xDB\xDB\xDB\xBB\n",
    .write "\xC8\xDB\xDB\xBB \xDB\xDB\xC9\xBC\xDB\xDB\xC9\xCD\xCD\xCD\xCD\xBC\n",
    .write " \xC8\xDB\xDB\xDB\xDB\xC9\xBC \xDB\xDB\xDB\xDB\xDB\xDB\xDB\xBB\n",
    .write "  \xC8\xDB\xDB\xC9\xBC  \xC8\xCD\xCD\xCD\xCD\xDB\xDB\xBA\n",
    .write "   \xDB\xDB\xBA   \xDB\xDB\xDB\xDB\xDB\xDB\xDB\xBA\n",
    .write "   \xC8\xCD\xBC   \xC8\xCD\xCD\xCD\xCD\xCD\xCD\xBC\n"]

def cmdAbout : List Event :=
  [.color 11 0, .write "Yunix v0.1.2\n", .write "Kernel: Seaweed v0.1\n", .color 7 0,
    .write "A hobby operating system by Yavuz Selim.\n", .write "32-bit x86, booted by GRUB via multiboot.\n",
    .write "Written in C and assembly, no libc underneath.\n"]

def printUnit (value : UInt32) (word : String) : Ran (List Event) := do
  let text ← numeral value
  .ok (([.chars text, .chars [32], .write word] : List Event) ++ if value ≠ 1 then [.chars [115]] else [])

def cmdUptime (ticks : UInt32) : Ran (List Event) := do
  let total := timerSeconds ticks
  let hours ← if 0 < total / 3600 then do
      let unit ← printUnit (total / 3600) "hour"
      .ok (unit ++ [.write ", "])
    else .ok []
  let minutes ← if 0 < total / 60 % 60 then do
      let unit ← printUnit (total / 60 % 60) "minute"
      .ok (unit ++ [.write ", "])
    else .ok []
  let seconds ← printUnit (total % 60) "second"
  .ok (.write "up " :: hours ++ minutes ++ seconds ++ [newline])

def cmdTicks (ticks : UInt32) : Ran (List Event) := do
  let count ← numeral ticks
  let rate ← numeral timerHz
  .ok [.chars count, .write " ticks at ", .chars rate, .write " Hz\n"]

end Texts

section Numbers

/-- The loop over the digits of `sleep` and of `help`, whose unsigned value wraps; `none`
for a character that is no digit. -/
def unsignedFrom : List UInt8 → UInt32 → Option UInt32
  | [], value => some value
  | c :: rest, value =>
    if signedChar c < 48 ∨ 57 < signedChar c then none
    else unsignedFrom rest (value * 10 + (c - 48).toUInt32)

def cmdSleep (arg : CString) : List Event :=
  if arg.chars = [] then [.write "Usage: sleep <seconds>\n"]
  else
    match unsignedFrom arg.chars 0 with
    | none => [.write "sleep: not a number\n"]
    | some seconds => if 60 < seconds then [.write "sleep: 60 seconds maximum\n"] else [.sleep (seconds * 1000)]

/-- The loop over the digits of `color`, in an `int`. -/
def signedFrom : List UInt8 → ℤ → Ran (Option ℤ)
  | [], value => .ok (some value)
  | c :: rest, value =>
    if signedChar c < 48 ∨ 57 < signedChar c then .ok none
    else do
      let tens ← Ran.int (value * 10)
      let value ← Ran.int (tens + (signedChar c - 48))
      signedFrom rest value

def cmdColor (arg : CString) : Ran (List Event) :=
  if arg.chars = [] then .ok [.write "Usage: color <0-15>\n"]
  else do
    match ← signedFrom arg.chars 0 with
    | none => .ok [.write "color: not a number\n"]
    | some value =>
      if 15 < value then .ok [.write "color: pick a number from 0 to 15\n"]
      else .ok [.color (UInt8.ofInt value) 0, .write "Color changed.\n"]

end Numbers

section Files

/-- `pwd`, with its array of `FISH_PATH_MAX` bytes. -/
def cmdPwd (s : Fish) : Ran (List Event) := do
  let path ← Ran.ofChecked (fishPath s 256)
  .ok [.chars (CString.ofBytes path).chars, newline]

def lsLine (entry : Entry) : Ran (List Event) := do
  let name ← if 0 ∈ entry.name.bytes then .ok (CString.ofBytes entry.name.bytes).chars else .error (.fault .name)
  if entry.isDir ≠ 0 then .ok [.color 9 0, .write "[DIR]  ", .chars name, newline]
  else do
    let size ← numeral entry.size
    .ok [.color 7 0, .write "[FILE] ", .chars name, .write "  (", .chars size, .write " bytes)", newline]

/-- The loop of `ls`. `fish_next` answers 0 exactly when it finds nothing, after 64 calls
at the latest. -/
def lsFrom (s : Fish) : ℕ → Handle → Ran (List (List Event))
  | 0, _ => .ok []
  | turns + 1, handle =>
    match fishNext s handle with
    | (none, _) => .ok []
    | (some entry, next) => do
      let line ← lsLine entry
      let lines ← lsFrom s turns next
      .ok (line :: lines)

def cmdLs (s : Fish) : Ran (List Event) := do
  let lines ← lsFrom s fishMaxNodes fishFirst
  .ok (lines.flatten ++ [.color 7 0] ++ if lines.length = 0 then [.write "Directory is empty.\n"] else [])

def cmdCd (arg : CString) (s : Fish) : Ran (List Event × Fish) :=
  if arg.chars = [] then do
    let (_, s) ← Ran.ofChecked (fishChdir s rootName)
    .ok ([], s)
  else do
    let (result, s) ← Ran.ofChecked (fishChdir s arg)
    .ok (if result.value < 0 then failed "cd" result else [], s)

/-- A command that makes one call of Fish with the name it is given. -/
def nameCommand (cmd usage : String) (call : Fish → CString → Checked (FishCode × Fish)) (arg : CString) (s : Fish) :
    Ran (List Event × Fish) :=
  if arg.chars = [] then .ok ([.write usage], s)
  else do
    let (result, s) ← Ran.ofChecked (call s arg)
    .ok (if result.value < 0 then failed cmd result else [], s)

def cmdMkdir : CString → Fish → Ran (List Event × Fish) := nameCommand "mkdir" "Usage: mkdir <name>\n" fishMkdir

def cmdTouch : CString → Fish → Ran (List Event × Fish) := nameCommand "touch" "Usage: touch <name>\n" fishCreate

def cmdRm : CString → Fish → Ran (List Event × Fish) := nameCommand "rm" "Usage: rm <name>\n" fishRemove

def cmdCat (arg : CString) (s : Fish) : Ran (List Event) :=
  if arg.chars = [] then .ok [.write "Usage: cat <file>\n"]
  else do
    match ← Ran.ofChecked (fishRead s arg) with
    | none => .ok [.write "cat: no such file\n"]
    | some (size, data) =>
      if fishFileMax < size.toNat then .error (.fault .data)
      else
        let shown := data.bytes.take size.toNat
        .ok (.chars shown :: if 0 < size ∧ shown.getLast? ≠ some 10 then [newline] else [])

/-- The name that `write` and `append` copy into their array, which has room for 31
characters, and the text from there on. -/
def cutName : ℕ → List UInt8 → List UInt8 × List UInt8
  | 0, rest => ([], rest)
  | _ + 1, [] => ([], [])
  | room + 1, c :: rest =>
    if c = 32 then ([], c :: rest)
    else
      let (name, text) := cutName room rest
      (c :: name, text)

def writeCommon (arg : CString) (appending : Bool) (s : Fish) : Ran (List Event × Fish) :=
  if arg.chars = [] then
    .ok ([.write (if appending then "Usage: append <file> <text>\n" else "Usage: write <file> <text>\n")], s)
  else do
    let (name, rest) := cutName (fishNameMax - 1) arg.chars
    let text := rest.dropWhile (· = 32)
    let call := if appending then fishAppend else fishWrite
    let (result, s) ← Ran.ofChecked (call s (CString.ofBytes name) (CString.ofBytes text))
    .ok (if result.value < 0 then failed (if appending then "append" else "write") result else [], s)

end Files

section Disk

variable {σ : Type} (ata : Ata σ)

def cmdFormat (d : σ) : List Event × Fish × σ :=
  let s := fishInit
  let (result, d) := fishSave ata s d
  if result.value < 0 then (failed "format" result, s, d)
  else ([.write "Filesystem erased and written to disk.\n"], s, d)

def cmdDisk (d : σ) : List Event :=
  if ata.present d then [.write "Primary master: present\n"] else [.write "Primary master: not found\n"]

end Disk

section Names

def cmdWhoami (u : Users) : List Event := [.chars u.name.chars, newline]

def cmdUser (arg : CString) (u : Users) (s : Fish) : Ran (List Event × Users × Fish) :=
  if arg.chars = [] then .ok ([.write "Usage: user <name>\n"], u, s)
  else
    match userSetName u arg with
    | (false, u) => .ok ([.write "user: names cannot be empty or contain spaces\n"], u, s)
    | (true, u) => do
      let (_, s) ← Ran.ofChecked (userSave u s)
      .ok ([], u, s)

def cmdHostname (arg : CString) (u : Users) (s : Fish) : Ran (List Event × Users × Fish) :=
  if arg.chars = [] then .ok ([.chars u.host.chars, newline], u, s)
  else
    match userSetHost u arg with
    | (false, u) => .ok ([.write "hostname: names cannot be empty or contain spaces\n"], u, s)
    | (true, u) => do
      let (_, s) ← Ran.ofChecked (userSave u s)
      .ok ([], u, s)

end Names

section Table

/-- The functions that the command table points to. -/
inductive CommandFn where
  | help | neofetch | clear | echo | about | ls | cd | pwd | mkdir | touch | cat | write | append | rm
  | save | load | format | disk | color | whoami | user | hostname | uptime | ticks | sleep | reboot | halt
deriving DecidableEq

/-- `struct command`. -/
structure Command where
  name : String
  args : String
  help : String
  run : CommandFn
deriving DecidableEq

def commands : List Command := [
  ⟨"help", "[page]", "show this list", .help⟩,
  ⟨"neofetch", "", "show the logo", .neofetch⟩,
  ⟨"clear", "", "clear the screen", .clear⟩,
  ⟨"echo", "<text>", "print text back", .echo⟩,
  ⟨"about", "", "information about this system", .about⟩,
  ⟨"ls", "", "list files in the directory", .ls⟩,
  ⟨"cd", "<dir>", "go in or out of a directory", .cd⟩,
  ⟨"pwd", "", "print the current directory", .pwd⟩,
  ⟨"mkdir", "<name>", "create a directory", .mkdir⟩,
  ⟨"touch", "<name>", "create a file", .touch⟩,
  ⟨"cat", "<file>", "show what is inside a file", .cat⟩,
  ⟨"write", "<file> <text>", "write text to a file", .write⟩,
  ⟨"append", "<file> <text>", "add text to a file", .append⟩,
  ⟨"rm", "<name>", "delete a file or empty directory", .rm⟩,
  ⟨"save", "", "write the filesystem to disk", .save⟩,
  ⟨"load", "", "read the filesystem from disk", .load⟩,
  ⟨"format", "", "erase the filesystem and save it", .format⟩,
  ⟨"disk", "", "is there a disk attached?", .disk⟩,
  ⟨"color", "<0-15>", "change the text colour", .color⟩,
  ⟨"whoami", "", "print the current user name", .whoami⟩,
  ⟨"user", "<name>", "change the user name", .user⟩,
  ⟨"hostname", "[name]", "show or change the computer name", .hostname⟩,
  ⟨"uptime", "", "how long the system has run", .uptime⟩,
  ⟨"ticks", "", "raw timer tick count", .ticks⟩,
  ⟨"sleep", "<secs>", "wait for a while", .sleep⟩,
  ⟨"reboot", "", "restart the machine", .reboot⟩,
  ⟨"halt", "", "stop the CPU", .halt⟩]

abbrev helpPerPage : ℕ := 20
abbrev helpColumn : ℕ := 23

def helpPages : UInt32 := UInt32.ofNat ((commands.length + helpPerPage - 1) / helpPerPage)

def writePadded (name args : String) : List Event :=
  let called : List Event := if args ≠ "" then [.chars [32], .write args] else []
  let width := name.length + if args ≠ "" then args.length + 1 else 0
  ([.write "  ", .write name] : List Event) ++ called ++ [.chars (List.replicate (helpColumn - width) 32)]

/-- What `help` prints once it has found the page. -/
def helpPage (page : UInt32) : Ran (List Event) := do
  let start := ((page - 1) * UInt32.ofNat helpPerPage).toNat
  let this ← numeral page
  let last ← numeral helpPages
  let rows := ((commands.drop start).take helpPerPage).flatMap fun row =>
    writePadded row.name row.args ++ [.write row.help, newline]
  .ok (([.write "Available commands (page ", .chars this, .write " of ", .chars last, .write "):\n"] : List Event) ++ rows ++
    if page < helpPages then [.write "\nType help 2 for more.\n"] else [])

def cmdHelp (arg : CString) : Ran (List Event) :=
  if arg.chars = [] then helpPage 1
  else
    match unsignedFrom arg.chars 0 with
    | none => .ok [.write "help: not a number\n"]
    | some page => if page < 1 ∨ helpPages < page then .ok [.write "help: no such page\n"] else helpPage page

end Table

section Execute

variable {σ : Type} (ata : Ata σ)

/-- The call through the table. -/
def CommandFn.call (arg : CString) (m : Machine σ) : CommandFn → Ran (List Event × Machine σ)
  | .help => do .ok (← cmdHelp arg, m)
  | .neofetch => .ok (cmdNeofetch, m)
  | .clear => .ok (cmdClear, m)
  | .echo => .ok (cmdEcho arg, m)
  | .about => .ok (cmdAbout, m)
  | .ls => do .ok (← cmdLs m.fish, m)
  | .cd => do
    let (out, s) ← cmdCd arg m.fish
    .ok (out, { m with fish := s })
  | .pwd => do .ok (← cmdPwd m.fish, m)
  | .mkdir => do
    let (out, s) ← cmdMkdir arg m.fish
    .ok (out, { m with fish := s })
  | .touch => do
    let (out, s) ← cmdTouch arg m.fish
    .ok (out, { m with fish := s })
  | .cat => do .ok (← cmdCat arg m.fish, m)
  | .write => do
    let (out, s) ← writeCommon arg false m.fish
    .ok (out, { m with fish := s })
  | .append => do
    let (out, s) ← writeCommon arg true m.fish
    .ok (out, { m with fish := s })
  | .rm => do
    let (out, s) ← cmdRm arg m.fish
    .ok (out, { m with fish := s })
  | .save => do
    let (out, s, d) ← Ran.ofChecked (cmdSave ata m.users m.fish m.disk)
    .ok (out.map .write, { m with fish := s, disk := d })
  | .load =>
    let (out, s, d) := cmdLoad ata m.fish m.disk
    .ok (out.map .write, { m with fish := s, disk := d })
  | .format =>
    let (out, s, d) := cmdFormat ata m.disk
    .ok (out, { m with fish := s, disk := d })
  | .disk => .ok (cmdDisk ata m.disk, m)
  | .color => do .ok (← cmdColor arg, m)
  | .whoami => .ok (cmdWhoami m.users, m)
  | .user => do
    let (out, u, s) ← cmdUser arg m.users m.fish
    .ok (out, { m with users := u, fish := s })
  | .hostname => do
    let (out, u, s) ← cmdHostname arg m.users m.fish
    .ok (out, { m with users := u, fish := s })
  | .uptime => do .ok (← cmdUptime m.ticks, m)
  | .ticks => do .ok (← cmdTicks m.ticks, m)
  | .sleep => .ok (cmdSleep arg, m)
  | .reboot => .ok ([.write "Rebooting...\n", .reboot], m)
  | .halt => .ok ([.write "System halted. You can close the system.\n", .halt], m)

/-- `while (*text == ' ') text++`, on the bytes from `text` to the end of the array. -/
def skipSpaces : List UInt8 → Option (List UInt8)
  | [] => none
  | c :: rest => if c = 32 then skipSpaces rest else some (c :: rest)

/-- The first index that holds a terminator or a space. -/
def wordEnd : List UInt8 → Option ℕ
  | [] => none
  | c :: rest => if c = 0 ∨ c = 32 then some 0 else (wordEnd rest).map (· + 1)

/-- `split`: the array with the command cut short, and the argument's place in it. -/
def Shell.split (text : List UInt8) : Option (List UInt8 × List UInt8) := do
  let i ← wordEnd text
  if text[i]? = some 0 then some (text, text.drop i)
  else do
    let arg ← skipSpaces (text.drop (i + 1))
    some (text.set i 0, arg)

def findCommand (text : List UInt8) : List Command → Ran (Option Command)
  | [] => .ok none
  | row :: rest => do
    let order ← Ran.ofOption .line (strcmp text (literal row.name).bytes)
    if order = 0 then .ok (some row) else findCommand text rest

/-- `execute`, on the bytes of the array `line`. -/
def execute (text : List UInt8) (m : Machine σ) : Ran (List Event × Machine σ) := do
  let text ← Ran.ofOption .line (skipSpaces text)
  if text.head? = some 0 then .ok ([], m)
  else do
    let (command, arg) ← Ran.ofOption .line (Shell.split text)
    match ← findCommand command commands with
    | some row => row.run.call ata (CString.ofBytes arg) m
    | none => .ok ([.chars (CString.ofBytes command).chars, .write ": command not found. Type help.\n"], m)

end Execute

end Seaweed
