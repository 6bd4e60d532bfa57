import ReleaseTrain.Image.Builder
import ReleaseTrain.Image.Publish
import ReleaseTrain.Packaging.Packager

/-!
A whole run: the version is read, then the agents are packaged, then the image is built and
published, each as far as it is planned. The first failure ends the run.
-/

namespace ReleaseTrain

inductive ImageStage
  | notRequested
  | cancelled
  | built (image : BuiltImage) (publish : PublishOutcome)
  deriving DecidableEq, Repr

structure RunOutcome where
  version : Version
  package : Option PackageReport
  image : ImageStage
  deriving DecidableEq, Repr

/-- What a run has made before it publishes anything. -/
structure Products where
  version : Version
  package : Option PackageReport
  image : Option BuiltImage
  deriving DecidableEq, Repr

namespace ImagePlan

def reference (plan : ImagePlan) (v : Version) : ImageReference :=
  .new plan.registry plan.name (plan.tag.getD v.text)

def request (plan : ImagePlan) (v : Version) : BuildRequest where
  image := plan.reference v
  dockerfile := plan.dockerfile
  context := plan.context
  platform := plan.platform
  buildConfiguration := plan.buildConfiguration
  version := v
  noCache := plan.noCache

def enabledText (enabled : Bool) : String := if enabled then "enabled" else "disabled"

/-- What the operator sees of a plan before confirming it. -/
def overview (plan : ImagePlan) (v : Version) : List Report :=
  let r := plan.reference v
  [.heading "Docker image",
    .detail s!"Registry:  {plan.registry}",
    .detail s!"Image:     {plan.name}",
    .detail s!"Tag:       {r.tag}",
    .detail s!"Version:   {v.text}",
    .detail s!"Platform:  {plan.platform}",
    .detail s!"Cache:     {enabledText !plan.noCache}",
    .detail s!"Push:      {enabledText !plan.publish.noPush}"] ++
  (r.latestAlias.map fun a ↦ .detail s!"Alias:     {a.text}").toList

end ImagePlan

namespace Pipeline

variable {σ : Type}

open Session

def reportAll (reports : List Report) : Session σ Unit := record (reports.map .reported)

def runPackage (env : Surroundings σ) (plan : PackagePlan) (v : Version) :
    Session σ PackageReport := do
  let s := plan.settings
  let platforms ← orThrow (Platform.resolve plan.selector s.host)
  reportAll (Platform.hostWarnings plan.selector s.host)
  reportAll
    [.heading "Packaging",
      .detail s!"Version:   {v.text}",
      .detail ("Platforms: " ++ Text.join ", " (platforms.map Platform.id)),
      .detail s!"Output:    {s.outputRoot.text}"]
  Packaging.package env s platforms v

def buildQuestion : String := "Continue with build?"

/-- Whether to go on with a build: agreed beforehand, or asked for now. -/
def confirmBuild (env : Surroundings σ) (assumeYes : Bool) : Session σ Bool :=
  if assumeYes then pure true else confirm env buildQuestion

def sayCancelled (env : Surroundings σ) : Session σ Unit := do
  unless env.interactive do
    report (.warning
      ("No terminal available to confirm the build; pass --yes to build non-interactively"))
  report (.warning "Build cancelled")

def buildImage (env : Surroundings σ) (plan : ImagePlan) (v : Version) :
    Session σ (Option BuiltImage) := do
  reportAll (plan.overview v)
  if ← confirmBuild env plan.assumeYes then
    Image.checkDaemon env
    let image ← Image.build env (plan.request v)
    report (.heading "Publishing")
    return some image
  else
    sayCancelled env
    return none

def packagePlanned (env : Surroundings σ) (v : Version) :
    Option PackagePlan → Session σ (Option PackageReport)
  | some plan => some <$> runPackage env plan v
  | none => return none

def buildPlanned (env : Surroundings σ) (v : Version) :
    Option ImagePlan → Session σ (Option BuiltImage)
  | some plan => buildImage env plan v
  | none => return none

/-- Packages and builds what is planned: everything of a run that comes before publishing. -/
def produce (env : Surroundings σ) (plan : Plan) : Session σ Products := do
  let v ← orThrow (Version.parse plan.version)
  report (.verbose s!"Version {v.text} (file version {v.fileVersion})")
  let package ← packagePlanned env v plan.package
  let image ← buildPlanned env v plan.image
  return ⟨v, package, image⟩

/-- Publishes the image that was built. One that was planned and not built was cancelled. -/
def finish (env : Surroundings σ) (credentials : Option Path) :
    Option ImagePlan → Option BuiltImage → Session σ ImageStage
  | none, _ => return .notRequested
  | some _, none => return .cancelled
  | some plan, some image => do
    let publish ← Publish.publish env credentials image plan.publish
    return .built image publish

def run (env : Surroundings σ) (credentials : Option Path) (plan : Plan) :
    Session σ RunOutcome := do
  let products ← produce env plan
  let image ← finish env credentials plan.image products.image
  return ⟨products.version, products.package, image⟩

end Pipeline

end ReleaseTrain
