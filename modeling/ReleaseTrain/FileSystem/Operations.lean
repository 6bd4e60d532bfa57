import ReleaseTrain.FileSystem.Resolve

/-!
Reading, writing, making and removing. An operation that fails may have done part of its work.
-/

namespace ReleaseTrain

open Text (Bytes)

namespace FileSystem

abbrev Action := EStateM Failure FileSystem

def find (path : Bytes) (followLast : Bool) : Action Target := fun fs ↦
  match fs.resolve path followLast with
  | .ok target => .ok target fs
  | .error failure => .error failure fs

def nodeAt? (fs : FileSystem) (path : Bytes) (followLast : Bool) : Option Node :=
  match fs.resolve path followLast with
  | .ok (.found _ node) => some node
  | _ => none

def isFile (fs : FileSystem) (path : Bytes) : Bool :=
  match fs.nodeAt? path true with
  | some (.file _ _) => true
  | _ => false

def isDirectory (fs : FileSystem) (path : Bytes) : Bool :=
  fs.nodeAt? path true = some .directory

def directoryAt? (fs : FileSystem) (path : Bytes) : Option Location :=
  match fs.resolve path true with
  | .ok (.found l .directory) => some l
  | _ => none

def content (path : Bytes) : Action Content := do
  match ← find path true with
  | .found _ (.file content _) => return content
  | .found _ _ => throw .isDirectory
  | .free _ _ => throw .notFound

def read (path : Bytes) : Action Bytes := do return (← content path).toBytes

def readText (path : Bytes) : Action String := do
  match Text.decode? (← read path) with
  | some text => return text
  | none => throw .notText

def defaultMode : Nat := 0o644

def write (path : Bytes) (content : Content) : Action Unit := do
  match ← find path true with
  | .found l (.file _ mode) => modify (·.set l (.file content mode))
  | .found _ _ => throw .isDirectory
  | .free l name => modify (·.set (l ++ [name]) (.file content defaultMode))

/-- Sets the rights of what a path leads to; only files keep them. -/
def setMode (path : Bytes) (mode : Nat) : Action Unit := do
  match ← find path true with
  | .found l (.file content _) => modify (·.set l (.file content mode))
  | .found _ _ => return
  | .free _ _ => throw .notFound

def withoutTrailing (path : Bytes) : Bytes :=
  (path.reverse.dropWhile (· = separator)).reverse

def makeDirectory (path : Bytes) : Action Unit := do
  match ← find (if withoutTrailing path = [] then path else withoutTrailing path) false with
  | .found _ _ => throw .alreadyExists
  | .free l name => modify (·.set (l ++ [name]) .directory)

def ensureDirectory (path : Bytes) : Action Unit := fun fs ↦
  match makeDirectory path fs with
  | .ok () fs => .ok () fs
  | .error failure fs => if fs.isDirectory path then .ok () fs else .error failure fs

def joinNames (fromRoot : Bool) (steps : List Name) : Bytes :=
  (if fromRoot then [separator] else []) ++ List.intercalate [separator] steps

/-- Makes a directory and those missing above it, given the names on the way from the last one
back. -/
def makeTree (fromRoot : Bool) : List Name → Action Unit
  | [] => return
  | step :: up => fun fs ↦
    let path := joinNames fromRoot (step :: up).reverse
    match makeDirectory path fs with
    | .ok () fs => .ok () fs
    | .error .notFound fs =>
      match makeTree fromRoot up fs with
      | .ok () fs => ensureDirectory path fs
      | .error failure fs => .error failure fs
    | .error failure fs => if fs.isDirectory path then .ok () fs else .error failure fs

/-- The names on a path with those left out that lead nowhere. -/
def plainSteps (path : Bytes) : List Name := (Route.ofBytes path).steps.filter (· ≠ stepHere)

def makeDirectories (path : Bytes) : Action Unit := fun fs ↦
  if path = [] then .ok () fs
  else
    match makeDirectory path fs with
    | .ok () fs => .ok () fs
    | .error .notFound fs =>
      match makeTree (Route.ofBytes path).fromRoot (plainSteps path).reverse.tail fs with
      | .ok () fs => ensureDirectory path fs
      | .error failure fs => .error failure fs
    | .error failure fs => if fs.isDirectory path then .ok () fs else .error failure fs

/-- Removes what stands at a place with all that is in it, unless the system refuses. -/
def removeAt (l : Location) : Action Unit := fun fs ↦
  match fs.refusals.lookup l with
  | none => .ok () (fs.removeTree l)
  | some left => .error .accessDenied (fs.removeBelow l left)

/-- Removes what is in a directory, unless the system refuses. -/
def clearAt (l : Location) : Action Unit := fun fs ↦
  match fs.refusals.lookup l with
  | none => .ok () (fs.removeBelow l)
  | some left => .error .accessDenied (fs.removeBelow l left)

def removeFile (path : Bytes) : Action Unit := do
  match ← find path false with
  | .found _ .directory => throw .isDirectory
  | .found l _ => removeAt l
  | .free _ _ => throw .notFound

def lastStep? (path : Bytes) : Option Name := (Route.ofBytes path).steps.getLast?

def isLink (fs : FileSystem) (path : Bytes) : Bool :=
  match fs.nodeAt? path false with
  | some (.link _) => true
  | _ => false

/-- Removes a directory with all that is in it, or a link. A directory named by `.`, by `..` or by
a link with a separator behind it is emptied, but is not removed under that name. -/
def removeDirectory (path : Bytes) : Action Unit := do
  match ← find path false with
  | .free _ _ => throw .notFound
  | .found _ (.file _ _) => throw .notDirectory
  | .found l (.link _) => removeAt l
  | .found l .directory =>
    if (← get).isLink (withoutTrailing path) then
      clearAt l
      throw .notDirectory
    else if lastStep? path = some stepHere then
      clearAt l
      throw .invalidArgument
    else if lastStep? path = some stepUp then
      clearAt l
      match ← find path false with
      | .free _ _ => throw .notFound
      | .found _ _ => throw .notEmpty
    else if l = [] then
      clearAt l
      throw .deviceBusy
    else removeAt l

/-- The action, which has nothing to do where there is nothing. -/
def ifAny (action : Action Unit) : Action Unit := fun fs ↦
  match action fs with
  | .error .notFound fs => .ok () fs
  | result => result

def listDirectory (fs : FileSystem) (path : Bytes) :
    Except Failure (List (Location × Node)) := do
  match ← fs.resolve path true with
  | .free _ _ => throw .notFound
  | .found l .directory => return fs.listed l
  | .found _ _ => throw .notDirectory

end FileSystem

end ReleaseTrain
