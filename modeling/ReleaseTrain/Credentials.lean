import ReleaseTrain.Image.Reference
import ReleaseTrain.Json.Value
import ReleaseTrain.World

/-!
The registries that the operator is logged in to, as the container tool's own configuration file
tells: a key of `auths` or of `credHelpers` that stands for the registry's host.
-/

namespace ReleaseTrain

/-- The two tables of the file that matter. -/
structure CredentialFile where
  auths : List (String × Json.Value) := []
  helpers : List (String × String) := []

namespace CredentialFile

open Json Reader

inductive Member
  | auths (entries : List (String × Value))
  | helpers (entries : List (String × String))
  | other (name : String)

namespace Member

def isAuths : Member → Bool
  | auths _ => true
  | _ => false

def isHelpers : Member → Bool
  | helpers _ => true
  | _ => false

end Member

def ofMembers (members : List Member) : CredentialFile where
  auths := members.flatMap fun
    | .auths entries => entries
    | _ => []
  helpers := members.flatMap fun
    | .helpers entries => entries
    | _ => []

def table {α : Type} (steps : Nat) (entries : Reader α) : Reader α := placed do
  let b ← beginValue
  if b = byte '{' then
    skip
    enclosed entries endObject
  else refuseType steps "a map"

def helperName (steps : Nat) : Reader String := placed do
  let b ← beginValue
  if b = byte '"' then do skip; string steps else refuseType steps "a string"

def helperEntries : Nat → Bool → Reader (List (String × String))
  | 0, _ => fail .eofWhileParsingObject
  | steps + 1, first => do
    if ← moreMembers first then
      let k ← key steps
      colon
      let name ← helperName steps
      return (k, name) :: (← helperEntries steps false)
    else return []

def readAuths (steps : Nat) : Reader (List (String × Value)) :=
  table steps (members steps (maxDepth - 2) true)

def readHelpers (steps : Nat) : Reader (List (String × String)) :=
  table steps (helperEntries steps true)

def duplicate (name : String) (seen : Bool) : Reader Unit :=
  if seen then refuse (.duplicateField name) else pure ()

/-- The members of the file's object. The two tables may be there once each. -/
def fileMembers : Nat → Bool → List Member → Reader (List Member)
  | 0, _, _ => fail .eofWhileParsingObject
  | steps + 1, first, read => do
    if ← moreMembers first then
      let k ← key steps
      if k = "auths" then
        duplicate k (read.any Member.isAuths)
        colon
        let entries ← readAuths steps
        fileMembers steps false (read ++ [.auths entries])
      else if k = "credHelpers" then
        duplicate k (read.any Member.isHelpers)
        colon
        let entries ← readHelpers steps
        fileMembers steps false (read ++ [.helpers entries])
      else
        colon
        skipValue steps
        fileMembers steps false (read ++ [.other k])
    else return read

/-- The file may also be a list of the two tables in this order. -/
def fileItems (steps : Nat) : Reader (List Member) := do
  unless ← moreItems true do return []
  let auths ← readAuths steps
  unless ← moreItems false do return [.auths auths]
  let helpers ← readHelpers steps
  return [.auths auths, .helpers helpers]

def file (steps : Nat) : Reader CredentialFile := do
  let members ← placed do
    let b ← beginValue
    if b = byte '[' then
      skip
      enclosed (fileItems steps) endList
    else if b = byte '{' then
      skip
      enclosed (fileMembers steps true []) endObject
    else refuseType steps "struct DockerConfig"
  ending
  return ofMembers members

def parse (text : String) : Except Json.Failure CredentialFile :=
  let bytes := Text.encode text
  match file (bytes.length + 2) ⟨bytes, 0⟩ with
  | .ok f _ => .ok f
  | .error raised _ => .error (raised.toFailure bytes)

end CredentialFile

def defaultHostAliases : List String :=
  ["index.docker.io", "registry-1.docker.io", "registry.hub.docker.com"]

/-- The host that a key stands for, without scheme and path. -/
def normalHost (key : String) : String :=
  let host := String.ofList (firstSegment (withoutScheme key.toList))
  if defaultHostAliases.contains host then defaultHost else host

namespace CredentialFile

def keys (f : CredentialFile) : List String := f.auths.map (·.1) ++ f.helpers.map (·.1)

def hasHost (f : CredentialFile) (host : String) : Bool :=
  f.keys.any fun key ↦ normalHost key = normalHost host

end CredentialFile

/-- Whether the file at a path has credentials for a host. Without a file there are none. -/
def hasCredentials (fs : FileSystem) (path : Path) (host : String) : Except ReleaseError Bool :=
  match FileSystem.readText path.bytes fs with
  | .ok text _ =>
    match CredentialFile.parse text with
    | .ok f => .ok (f.hasHost host)
    | .error failure => .error (.json failure)
  | .error .notFound _ => .ok false
  | .error failure _ => .error (.io failure)

/-- Where the container tool keeps its configuration: in a directory of its own choice, or below
the home directory. -/
def credentialPath (configDir home : Option String) : Path :=
  match configDir with
  | some dir => Path.join ⟨dir⟩ "config.json"
  | none =>
    let home := match home with
      | some home => if home.isEmpty then defaultHome else home
      | none => defaultHome
    (Path.join ⟨home⟩ ".docker").join "config.json"
where
  /-- The home directory of the user that the system runs everything as. -/
  defaultHome : String := "/root"

end ReleaseTrain
