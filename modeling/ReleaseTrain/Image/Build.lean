import ReleaseTrain.Image.Reference
import ReleaseTrain.Invocation
import ReleaseTrain.Path
import ReleaseTrain.Version

/-!
The commands of an image's life: asking for the daemon, building, tagging, logging in, pushing.
-/

namespace ReleaseTrain

structure BuildRequest where
  image : ImageReference
  dockerfile : Path
  context : Path
  platform : String
  buildConfiguration : String
  version : Version
  noCache : Bool
  deriving DecidableEq, Repr

namespace BuildRequest

/-- A list of platforms has commas. -/
def isMultiPlatform (r : BuildRequest) : Bool := r.platform.toList.contains ','

/-- Only the extended builder takes a list of platforms. -/
def command (r : BuildRequest) : Invocation where
  program := "docker"
  arguments :=
    (if r.isMultiPlatform then ["buildx", "build"] else ["build"]) ++
      ["--platform", r.platform, "-f", r.dockerfile.text,
        "--build-arg", s!"BUILD_CONFIGURATION={r.buildConfiguration}",
        "--build-arg", s!"CURRENT_VERSION={r.version.text}", "-t", r.image.text] ++
      (if r.noCache then ["--no-cache"] else []) ++ [r.context.text]
  timeoutMs := 1800000

end BuildRequest

def infoCommand : Invocation where
  program := "docker"
  arguments := ["info", "--format", "\x7b\x7b.ServerVersion\x7d\x7d"]
  timeoutMs := 5000

def tagCommand (source target : ImageReference) : Invocation where
  program := "docker"
  arguments := ["tag", source.text, target.text]
  timeoutMs := 30000

def loginCommand (host : String) : Invocation where
  program := "docker"
  arguments := ["login", host]
  timeoutMs := 300000

def pushCommand (reference : String) : Invocation where
  program := "docker"
  arguments := ["push", reference]
  timeoutMs := 1200000

/-- An image that was built, and the other reference it was tagged with. -/
structure BuiltImage where
  primary : ImageReference
  latest : Option ImageReference
  deriving DecidableEq, Repr

def BuiltImage.references (image : BuiltImage) : List ImageReference :=
  image.primary :: image.latest.toList

end ReleaseTrain
