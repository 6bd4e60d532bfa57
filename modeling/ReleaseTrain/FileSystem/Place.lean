import ReleaseTrain.FileSystem.Operations

/-!
Putting files in place, as a tool or a person does who prepares a directory: whatever is missing
above is made, and what cannot be put in place is left out.
-/

namespace ReleaseTrain

open Text (Bytes)

inductive Item
  | directory
  | link (target : Bytes)
  | file (content : Bytes) (mode : Nat)
  deriving DecidableEq, Repr

namespace FileSystem

def directoryPart (path : Bytes) : Bytes :=
  joinNames (Route.ofBytes path).fromRoot (plainSteps path).dropLast

def maxTarget : Nat := 4095

/-- Makes a link, whether or not anything stands where it leads. -/
def makeLink (path target : Bytes) : Action Unit := do
  if target = [] then throw .notFound
  if target.contains 0 then throw .nulInPath
  if maxTarget < target.length then throw .nameTooLong
  match ← find path false with
  | .found _ _ => throw .alreadyExists
  | .free l name => modify (·.set (l ++ [name]) (.link target))

def putItem (path : Bytes) : Item → Action Unit
  | .directory => makeDirectories path
  | .link target => do
    makeDirectories (directoryPart path)
    makeLink path target
  | .file content mode => do
    makeDirectories (directoryPart path)
    write path (.bytes content)
    setMode path mode

def place (fs : FileSystem) (path : Bytes) (item : Item) : FileSystem :=
  match putItem path item fs with
  | .ok _ fs => fs
  | .error _ fs => fs

end FileSystem

end ReleaseTrain
