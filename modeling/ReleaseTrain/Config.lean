import ReleaseTrain.Error
import ReleaseTrain.FileSystem.Operations
import ReleaseTrain.Text.Blank
import ReleaseTrain.Toml.Document

/-!
The configuration of a release. A document sets some fields in the sections `project` and `image`;
every other field has a default.
-/

namespace ReleaseTrain

/-- The section `project`: what is packaged, and where to. -/
structure ProjectConfig where
  agentProject : String := "src/Agent/Agent.csproj"
  companionProject : String := "src/Desktop/Desktop.csproj"
  agentName : String := "agent"
  configuration : String := "Release"
  outputDir : String := "dist"
  stagingDir : String := "build/staging"
  companionOutputDir : String := "build/companion"
  extraCleanDirs : List String := []
  deriving DecidableEq, Repr

/-- The section `image`: what is built, and under which name. -/
structure ImageConfig where
  registry : String := "docker.io/library"
  name : String := "remote-agent"
  dockerfile : String := "Dockerfile"
  context : String := "."
  platform : String := "linux/amd64"
  buildConfiguration : String := "Release"
  deriving DecidableEq, Repr

structure Config where
  project : ProjectConfig := {}
  image : ImageConfig := {}
  deriving DecidableEq, Repr

namespace Toml.Value

def asString : Value → Except Failure String
  | .string text => .ok text
  | _ => .error (.invalidType "a string")

def asStrings : Value → Except Failure (List String)
  | .array items => items.mapM asString
  | _ => .error (.invalidType "an array of strings")

end Toml.Value

/-- How one field of a section is set from a value. -/
structure Field (α : Type) where
  key : String
  set : α → Toml.Value → Except Toml.Failure α

namespace Field

variable {α : Type}

def string (key : String) (put : α → String → α) : Field α :=
  ⟨key, fun a v ↦ v.asString.map (put a)⟩

def strings (key : String) (put : α → List String → α) : Field α :=
  ⟨key, fun a v ↦ v.asStrings.map (put a)⟩

def setByKey (fields : List (Field α)) (a : α) (entry : String × Toml.Value) :
    Except Toml.Failure α :=
  match fields.find? (·.key = entry.1) with
  | some field => field.set a entry.2
  | none => .error (.unknownField entry.1)

/-- A section is a table with known keys. It may also be an array that gives its first fields in
their order; what follows the last field counts for nothing. -/
def setSection (fields : List (Field α)) (a : α) : Toml.Value → Except Toml.Failure α
  | .table entries => entries.foldlM (setByKey fields) a
  | .array items => (fields.zip items).foldlM (fun a (field, v) ↦ field.set a v) a
  | _ => .error (.invalidType "a section")

end Field

namespace ProjectConfig

def fields : List (Field ProjectConfig) :=
  [.string "agent_project" fun c s ↦ { c with agentProject := s },
    .string "companion_project" fun c s ↦ { c with companionProject := s },
    .string "agent_name" fun c s ↦ { c with agentName := s },
    .string "configuration" fun c s ↦ { c with configuration := s },
    .string "output_dir" fun c s ↦ { c with outputDir := s },
    .string "staging_dir" fun c s ↦ { c with stagingDir := s },
    .string "companion_output_dir" fun c s ↦ { c with companionOutputDir := s },
    .strings "extra_clean_dirs" fun c ss ↦ { c with extraCleanDirs := ss }]

end ProjectConfig

namespace ImageConfig

def fields : List (Field ImageConfig) :=
  [.string "registry" fun c s ↦ { c with registry := s },
    .string "name" fun c s ↦ { c with name := s },
    .string "dockerfile" fun c s ↦ { c with dockerfile := s },
    .string "context" fun c s ↦ { c with context := s },
    .string "platform" fun c s ↦ { c with platform := s },
    .string "build_configuration" fun c s ↦ { c with buildConfiguration := s }]

end ImageConfig

namespace Config

def fields : List (Field Config) :=
  [⟨"project", fun c v ↦ do
      return { c with project := ← Field.setSection ProjectConfig.fields {} v }⟩,
    ⟨"image", fun c v ↦ do
      return { c with image := ← Field.setSection ImageConfig.fields {} v }⟩]

def ofTable (table : Toml.Table) : Except Toml.Failure Config :=
  table.foldlM (Field.setByKey fields) {}

def check (c : Config) : Except ReleaseError Config :=
  if Text.blank c.project.agentName then .error (.config "project.agent_name cannot be empty")
  else if Text.blank c.image.name then .error (.config "image.name cannot be empty")
  else .ok c

def ofToml (text : String) : Except ReleaseError Config :=
  match (Toml.parse text).bind ofTable with
  | .ok c => c.check
  | .error failure => .error (.toml failure)

def fileName : String := "release.toml"

/-- The configuration in a file, which has to be there. -/
def load (fs : FileSystem) (path : Path) : Except ReleaseError Config :=
  match FileSystem.readText path.bytes fs with
  | .ok text _ => ofToml text
  | .error failure _ => .error (.config s!"Failed to read {path.text}: {failure.message}")

/-- The configuration in a file that is asked for, or else in the usual file of a directory if it
has one, or else the defaults. -/
def discover (fs : FileSystem) (requested : Option Path) (dir : Path) :
    Except ReleaseError Config :=
  match requested with
  | some path => load fs path
  | none =>
    let path := dir.join fileName
    if fs.isFile path.bytes then load fs path else .ok {}

end Config

end ReleaseTrain
