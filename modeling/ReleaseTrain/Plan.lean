import ReleaseTrain.Arguments
import ReleaseTrain.Packaging.Settings

/-!
What a run is to do: the arguments laid over the configuration, with every path resolved.
-/

namespace ReleaseTrain

structure PackagePlan where
  /-- A platform, or all of them. -/
  selector : String
  settings : Settings
  deriving DecidableEq, Repr

structure PublishOptions where
  noPush : Bool := false
  skipLoginCheck : Bool := false
  deriving DecidableEq, Repr

structure ImagePlan where
  registry : String
  name : String
  /-- The version if there is none. -/
  tag : Option String
  dockerfile : Path
  context : Path
  platform : String
  buildConfiguration : String
  noCache : Bool
  publish : PublishOptions
  assumeYes : Bool
  deriving DecidableEq, Repr

/-- The version is read when the plan is carried out. -/
structure Plan where
  version : String
  package : Option PackagePlan
  image : Option ImagePlan
  deriving DecidableEq, Repr

namespace PackagePlan

def ofArguments (a : PackageArguments) (c : Config) (base : Path) : PackagePlan where
  selector := a.platform
  settings := { Settings.ofConfig c.project base with clean := a.clean }

end PackagePlan

namespace ImagePlan

/-- Each argument given wins over the configuration; the registry that wins may not be blank. -/
def ofArguments (a : ImageArguments) (c : Config) (base : Path) : Except ReleaseError ImagePlan :=
  let registry := a.registry.getD c.image.registry
  if Text.blank registry then .error (.config "Registry cannot be empty")
  else
    .ok {
      registry := registry
      name := a.imageName.getD c.image.name
      tag := a.tag
      dockerfile := Path.absolute ⟨c.image.dockerfile⟩ base
      context := Path.absolute ⟨c.image.context⟩ base
      platform := a.imagePlatform.getD c.image.platform
      buildConfiguration := c.image.buildConfiguration
      noCache := a.noCache
      publish := ⟨a.noPush, a.skipLoginCheck⟩
      assumeYes := a.yes
    }

end ImagePlan

namespace Plan

def ofArguments (a : Arguments) (c : Config) (base : Path) : Except ReleaseError Plan := do
  let image ← a.command.image?.mapM fun i ↦ ImagePlan.ofArguments i c base
  return {
    version := a.version
    package := a.command.package?.map fun p ↦ PackagePlan.ofArguments p c base
    image := image
  }

end Plan

end ReleaseTrain
