import ReleaseTrain.FileSystem.Place

/-!
Files that can be run: a tool of the machine, or a script for an interpreter that its first line
names.
-/

namespace ReleaseTrain

open Text (Bytes)

inductive Executable
  | tool (name : Bytes)
  | script (interpreter : Bytes) (argument : Option Bytes)
  deriving DecidableEq, Repr

namespace Executable

def toolMark : Bytes := [0x7f, 0x45, 0x4c, 0x46]

def toolFile (name : String) : Bytes := toolMark ++ Text.encode name

def scriptMark : Bytes := [35, 33]

def isBlank (b : UInt8) : Bool := b == 32 || b == 9

def trimBlanks (bytes : Bytes) : Bytes :=
  ((bytes.dropWhile isBlank).reverse.dropWhile isBlank).reverse

def ofFirstLine (line : Bytes) : Except FileSystem.Failure Executable :=
  let line := trimBlanks line
  let interpreter := line.takeWhile fun b ↦ !isBlank b
  let argument := trimBlanks (line.drop interpreter.length)
  if interpreter = [] then .error .notExecutable
  else .ok (.script interpreter (if argument = [] then none else some argument))

def ofContent (bytes : Bytes) : Except FileSystem.Failure Executable :=
  if toolMark.isPrefixOf bytes then .ok (.tool (bytes.drop toolMark.length))
  else if scriptMark.isPrefixOf bytes then
    ofFirstLine ((bytes.drop scriptMark.length).takeWhile (· ≠ 10))
  else .error .notExecutable

def ofPath (fs : FileSystem) (path : Bytes) : Except FileSystem.Failure Executable :=
  match fs.resolve path true with
  | .error failure => .error failure
  | .ok (.free _ _) => .error .notFound
  | .ok (.found _ (.file (.bytes bytes) mode)) =>
    if mode &&& 0o111 = 0 then .error .accessDenied else ofContent bytes
  | .ok (.found _ (.file (.archive _) mode)) =>
    .error (if mode &&& 0o111 = 0 then .accessDenied else .notExecutable)
  | .ok (.found _ _) => .error .accessDenied

/-- How many scripts may interpret each other. -/
def maxInterpreters : Nat := 5

def check (fs : FileSystem) : Nat → Bytes → Except FileSystem.Failure Executable
  | 0, _ => .error .tooManyLinks
  | steps + 1, path => do
    let x ← ofPath fs path
    match x with
    | .tool _ => return x
    | .script interpreter _ => do
      let _ ← check fs steps interpreter
      return x

def start (fs : FileSystem) (path : Bytes) : Except FileSystem.Failure Executable :=
  check fs maxInterpreters path

def inDirectory (directory name : Bytes) : Bytes :=
  if directory = [] then name else directory ++ FileSystem.separator :: name

/-- Looks for a name in one directory after the other. That a file may not be run counts only when
nothing else is found. -/
def search (fs : FileSystem) (name : Bytes) (refused : Bool) : List Bytes →
    Except FileSystem.Failure (Bytes × Executable)
  | [] => .error (if refused then .accessDenied else .notFound)
  | directory :: directories =>
    let path := inDirectory directory name
    match start fs path with
    | .ok x => .ok (path, x)
    | .error .accessDenied => search fs name true directories
    | .error .notFound | .error .notDirectory => search fs name refused directories
    | .error failure => .error failure

def find (fs : FileSystem) (directories : List Bytes) (name : Bytes) :
    Except FileSystem.Failure (Bytes × Executable) :=
  if name = [] then .error .notFound
  else if name.contains FileSystem.separator then (start fs name).map (name, ·)
  else search fs name false directories

def standardTools : List String :=
  ["[", "cat", "chmod", "cp", "dash", "echo", "env", "false", "head", "ln", "ls", "mkdir", "mv",
    "printf", "pwd", "rm", "rmdir", "seq", "sh", "sleep", "tail", "test", "touch", "tr", "true",
    "wc"]

def toolDirectory : Bytes := Text.encode "/usr/bin/"

def standardFiles : FileSystem :=
  let fs : FileSystem := standardTools.foldl (fun fs name ↦
    fs.place (toolDirectory ++ Text.encode name) (.file (toolFile name) 0o755)) {}
  let fs := fs.place (Text.encode "/bin") (.link (Text.encode "usr/bin"))
  fs.place (Text.encode "/tmp") .directory

end Executable

end ReleaseTrain
