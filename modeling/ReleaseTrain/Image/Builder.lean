import ReleaseTrain.Image.Build
import ReleaseTrain.World

/-!
Building an image: the daemon has to answer, then the image is built under its own tag, and one
with a production tag is tagged as `latest` too.
-/

namespace ReleaseTrain

namespace Image

variable {σ : Type}

open Session

def startHelp : String := "Start Docker daemon: sudo systemctl start docker"

def daemonUnreachable (cause : ReleaseError) : ReleaseError :=
  .executionFailed "docker info"
    (s!"Docker daemon check failed: {cause.message}\n\nThis usually means Docker is not " ++
      s!"responding.\n{startHelp}")

def daemonRefused (outcome : Outcome) : ReleaseError :=
  .executionFailed "docker info"
    (s!"Docker daemon is not responding (exit code: {outcome.code.getD (-1)}).\n\n{startHelp}\n\n" ++
      "If Docker is installed, ensure the daemon is running.\n" ++
      "If not installed, visit: https://docs.docker.com/get-docker/")

def checkDaemon (env : Surroundings σ) : Session σ Unit := do
  match ← attempt env .captured infoCommand with
  | .error cause => throw (daemonUnreachable cause)
  | .ok outcome => unless outcome.success do throw (daemonRefused outcome)

def tag (env : Surroundings σ) (source target : ImageReference) : Session σ Unit := do
  let command := tagCommand source target
  demand env command fun outcome ↦ .executionFailed command.text
    s!"Failed to tag {source.text} as {target.text} (exit code: {outcome.code.getD (-1)})"
  report (.success s!"Tagged {target.text}")

def build (env : Surroundings σ) (request : BuildRequest) : Session σ BuiltImage := do
  report (.progress s!"Building Docker image: {request.image.text}")
  demand env request.command fun outcome ↦ .imageBuildFailed request.image.text outcome.code
  report (.success s!"Built {request.image.text}")
  match request.image.latestAlias with
  | some latest =>
    tag env request.image latest
    return ⟨request.image, some latest⟩
  | none => return ⟨request.image, none⟩

end Image

end ReleaseTrain
