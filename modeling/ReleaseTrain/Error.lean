import ReleaseTrain.FileSystem.Failure
import ReleaseTrain.Json.Failure
import ReleaseTrain.Path
import ReleaseTrain.Toml.Failure

/-!
What ends a release: the causes, their wording, what they concern, and the command with which an
operator can carry on by hand.
-/

namespace ReleaseTrain

def versionGrammar : String := "MAJOR.MINOR.PATCH[-PRERELEASE] (e.g. 1.2.3 or 1.2.3-beta.1)"

/-- An exit code is absent when a signal ended the process. -/
inductive ReleaseError
  | invalidVersion (input : String)
  | unknownPlatform (selector valid : String)
  | companionBuildFailed (platform : String) (code : Option Int)
  | agentBuildFailed (platform : String) (code : Option Int)
  | artifactNotFound (platform : String) (path : Path)
  | imageBuildFailed (image : String) (code : Option Int)
  | loginFailed (registry image : String)
  | authenticationRequired (registry image : String)
  /-- `published` holds what was pushed before the failure. -/
  | pushFailed (reference : String) (published : List String)
  | toolNotFound (tool hint : String)
  | config (reason : String)
  | executionFailed (command reason : String)
  | io (cause : FileSystem.Failure)
  | json (cause : Json.Failure)
  | toml (cause : Toml.Failure)
  | duplicateEntry (name : String)
  deriving DecidableEq, Repr

def exitCodeText : Option Int → String
  | none => "terminated by signal"
  | some code => toString code

namespace ReleaseError

def publishedNote (published : List String) : String :=
  if published.isEmpty then ""
  else " (already published: " ++ Text.join ", " published ++ ")"

def message : ReleaseError → String
  | invalidVersion input => s!"Invalid version format: '{input}'. Expected {versionGrammar}"
  | unknownPlatform selector valid =>
    s!"Unknown platform: '{selector}'. Valid platforms: {valid}"
  | companionBuildFailed platform code =>
    s!"Companion bundle build failed for {platform} (exit code: {exitCodeText code})"
  | agentBuildFailed platform code =>
    s!"Agent build failed for {platform} (exit code: {exitCodeText code})"
  | artifactNotFound platform path =>
    s!"Expected artifact for {platform} not found at {path.text}"
  | imageBuildFailed image code =>
    s!"Docker image build failed for {image} (exit code: {exitCodeText code})"
  | loginFailed registry image =>
    s!"Login to {registry} failed. Image {image} was built but not pushed"
  | authenticationRequired registry image =>
    s!"Not authenticated to {registry} and no interactive terminal is available. " ++
      s!"Image {image} remains available locally"
  | pushFailed reference published => s!"Failed to push {reference}" ++ publishedNote published
  | toolNotFound tool hint => s!"Required tool '{tool}' not found in PATH. {hint}"
  | config reason => s!"Configuration error: {reason}"
  | executionFailed command reason => s!"Command execution failed: {command} - {reason}"
  | io cause => s!"IO error: {cause.message}"
  | json cause => s!"JSON error: {cause.message}"
  | toml cause => s!"TOML error: {cause.message}"
  | duplicateEntry name => s!"Archive error: invalid Zip archive: Duplicate filename: {name}"

/-- The command with which the operator recovers, where there is one. -/
def followUp : ReleaseError → Option String
  | invalidVersion _ => some "agent_release release --version 1.2.3"
  | loginFailed registry image | authenticationRequired registry image =>
    some s!"docker login {registry} && docker push {image}"
  | pushFailed reference _ => some s!"docker push {reference}"
  | artifactNotFound platform _ =>
    some s!"agent_release package --clean --platform {platform} --version <VERSION>"
  | _ => none

def subject : ReleaseError → Option String
  | companionBuildFailed platform _ | agentBuildFailed platform _ | artifactNotFound platform _ =>
    some platform
  | imageBuildFailed image _ | loginFailed _ image | authenticationRequired _ image => some image
  | pushFailed reference _ => some reference
  | _ => none

def exitCode (_ : ReleaseError) : Nat := 1

end ReleaseError

end ReleaseTrain
