import ReleaseTrain.Digest
import ReleaseTrain.FileSystem.Archive
import ReleaseTrain.World

/-!
What packaging does to files. To remove what is not there is no failure.
-/

namespace ReleaseTrain.Session

variable {σ : Type}

def couldNotRemove (command : String) (path : Path) (cause : FileSystem.Failure) : ReleaseError :=
  .executionFailed command s!"Failed to remove {path.text}: {cause.message}"

def removeDirectory (path : Path) : Session σ Unit :=
  onFiles (couldNotRemove "remove directory" path)
    (FileSystem.ifAny (FileSystem.removeDirectory path.bytes))

def removeFile (path : Path) : Session σ Unit :=
  onFiles (couldNotRemove "remove file" path) (FileSystem.ifAny (FileSystem.removeFile path.bytes))

def removeEntry (path : Path) (l : Location) (node : Node) : Session σ Unit :=
  let command := if node = .directory then "remove directory" else "remove file"
  let entry := path.join (Text.lossy (l.getLast?.getD []))
  onFiles (couldNotRemove command entry) (FileSystem.removeAt l)

/-- Removes the entries of a directory one after the other, up to the first that is refused. -/
def removeEach (path : Path) : List (Location × Node) → Session σ Unit
  | [] => return
  | (l, node) :: entries => do
    removeEntry path l node
    removeEach path entries

def emptyDirectory (path : Path) : Session σ Unit := do
  match (← files).listDirectory path.bytes with
  | .error .notFound => return
  | .error failure => throw (.io failure)
  | .ok entries => removeEach path entries

def makeDirectories (path : Path) : Session σ Unit :=
  onFiles .io (FileSystem.makeDirectories path.bytes)

/-- Makes a directory, on demand after removing what is in its place. -/
def makeDirectory (path : Path) (erase : Bool) : Session σ Unit := do
  if erase then removeDirectory path
  makeDirectories path

def makeParents (path : Path) : Session σ Unit :=
  match path.parent? with
  | some parent => makeDirectories parent
  | none => pure ()

def writeText (path : Path) (text : String) : Session σ Unit := do
  makeParents path
  onFiles .io (FileSystem.write path.bytes (.bytes (Text.encode text)))

def isFile (path : Path) : Session σ Bool := do return (← files).isFile path.bytes

def read (path : Path) : Session σ Text.Bytes := onFiles .io (FileSystem.read path.bytes)

def digest (path : Path) : Session σ String := do return Digest.ofFile (← read path)

/-- Writes the archive of a directory. The old file in its place is emptied first; a name that
comes twice ends the archive before it. -/
def archive (source target : Path) : Session σ Unit := do
  match (← files).directoryAt? source.bytes with
  | none =>
    throw (.executionFailed "zip companion bundle" s!"{source.text} is not a directory")
  | some root =>
    makeParents target
    onFiles .io (FileSystem.write target.bytes (.archive []))
    let (entries, again) := distinctEntries [] ((← files).archiveEntries root)
    onFiles .io (FileSystem.write target.bytes (.archive entries))
    match again with
    | some name => throw (.duplicateEntry name)
    | none => return

end ReleaseTrain.Session
