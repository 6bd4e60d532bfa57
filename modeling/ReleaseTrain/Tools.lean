import ReleaseTrain.Error
import ReleaseTrain.FileSystem.Operations

/-!
Looking for a tool before it is needed, in the directories that commands are looked for in.
-/

namespace ReleaseTrain

namespace Tools

def installHint (tool : String) : String :=
  if tool = "dotnet" then "Install the .NET SDK from https://dotnet.microsoft.com/download"
  else if tool = "docker" then "Install from https://docs.docker.com/get-docker/"
  else if tool = "ditto" then "ditto ships with macOS; ensure /usr/bin is on PATH"
  else "Install it and ensure it is on PATH"

def isExecutable (fs : FileSystem) (path : Path) : Bool :=
  match fs.nodeAt? path.bytes true with
  | some (.file _ mode) => mode &&& 0o111 ≠ 0
  | _ => false

/-- A directory whose first name is `~` lies in the home directory, if there is one. -/
def atHome (home : Option Path) (directory : Path) : Path :=
  match home, directory.components with
  | some home, .name ['~'] :: rest => rest.foldl (fun p c ↦ p.join (.ofList c.toChars)) home
  | _, _ => directory

/-- A name with a separator inside is a path and is not looked for anywhere else. -/
def candidates (home : Option Path) (directories : List Path) (tool : String) : List Path :=
  if (Path.mk tool).components.length ≤ 1 then
    directories.map fun d ↦ (atHome home d).join tool
  else [⟨tool⟩]

def locate (fs : FileSystem) (home : Option Path) (directories : List Path) (tool : String) :
    Option Path :=
  (candidates home directories tool).find? (isExecutable fs)

def require (fs : FileSystem) (home : Option Path) (directories : List Path) (tool : String) :
    Except ReleaseError Path :=
  match locate fs home directories tool with
  | some path => .ok path
  | none => .error (.toolNotFound tool (installHint tool))

end Tools

def searchPath (text : String) : List Path := (Text.split ':' text).map Path.mk

end ReleaseTrain
