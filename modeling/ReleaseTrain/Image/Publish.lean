import ReleaseTrain.Credentials
import ReleaseTrain.Image.Build
import ReleaseTrain.Plan

/-!
Publishing an image: whether to push at all, whether the operator is logged in or can be asked to
log in, and then a push of each reference. A push that fails ends it; what was pushed before stays.
-/

namespace ReleaseTrain

/-- Whether the registry will know the operator. -/
inductive AuthState
  | authenticated
  | promptAvailable
  | nonInteractive
  deriving DecidableEq, Repr

def AuthState.of (credentials interactive : Bool) : AuthState :=
  if credentials then authenticated
  else if interactive then promptAvailable
  else nonInteractive

inductive PublishOutcome
  | skipped
  | loginDeclined
  | pushed (references : List String)
  deriving DecidableEq, Repr

namespace Publish

variable {σ : Type}

open Session

/-- What the credential file says of a host. Without a file named there are no credentials. -/
def credentialsFound (credentials : Option Path) (fs : FileSystem) (host : String) :
    Except ReleaseError Bool :=
  match credentials with
  | some path => hasCredentials fs path host
  | none => .ok false

/-- What the credential file says at this moment decides whether there is anything to ask. -/
def authState (env : Surroundings σ) (credentials : Option Path) (image : BuiltImage) :
    Session σ AuthState := do
  let found ← orThrow (credentialsFound credentials (← files) image.primary.registryHost)
  return .of found env.interactive

/-- A login that cannot be run counts as one that failed. -/
def login (env : Surroundings σ) (image : BuiltImage) : Session σ Unit := do
  let host := image.primary.registryHost
  let result ← attempt env .interactive (loginCommand host)
  unless result.toOption.any Outcome.success do throw (.loginFailed host image.primary.text)
  report (.success s!"Logged in to {host}")

def pushOne (env : Surroundings σ) (published : List String) (reference : String) :
    Session σ Unit := do
  report (.progress s!"Pushing {reference}...")
  match ← attempt env .captured (pushCommand reference) with
  | .ok outcome => unless outcome.success do throw (.pushFailed reference published)
  | .error cause =>
    report (.warning cause.message)
    throw (.pushFailed reference published)
  report (.success s!"Pushed {reference}")

def pushEach (env : Surroundings σ) (published : List String) :
    List String → Session σ (List String)
  | [] => return published
  | reference :: references => do
    pushOne env published reference
    pushEach env (published ++ [reference]) references

def push (env : Surroundings σ) (image : BuiltImage) : Session σ PublishOutcome := do
  return .pushed (← pushEach env [] (image.references.map ImageReference.text))

def declined (image : BuiltImage) : Session σ PublishOutcome := do
  report (.warning (s!"Login declined. Image {image.primary.text} is available locally; " ++
    "push it later with:"))
  record (image.references.map fun r ↦ .reported (.detail s!"docker push {r.text}"))
  return .loginDeclined

def loginQuestion (host : String) : String := s!"Not logged in to {host}. Log in now?"

/-- Pushes if the registry knows the operator, or after a login that the operator agreed to. -/
def pushAuthenticated (env : Surroundings σ) (credentials : Option Path) (image : BuiltImage) :
    Session σ PublishOutcome := do
  let host := image.primary.registryHost
  match ← authState env credentials image with
  | .authenticated =>
    report (.verbose s!"Credentials found for {host}")
    push env image
  | .promptAvailable =>
    if ← confirm env (loginQuestion host) then
      login env image
      push env image
    else declined image
  | .nonInteractive => throw (.authenticationRequired host image.primary.text)

def publish (env : Surroundings σ) (credentials : Option Path) (image : BuiltImage)
    (options : PublishOptions) : Session σ PublishOutcome := do
  if options.noPush then
    report (.success s!"Push disabled; image available locally as {image.primary.text}")
    return .skipped
  else if options.skipLoginCheck then
    report (.verbose "Skipping registry login check")
    push env image
  else pushAuthenticated env credentials image

end Publish

end ReleaseTrain
