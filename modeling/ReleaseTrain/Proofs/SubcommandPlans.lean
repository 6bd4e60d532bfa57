import ReleaseTrain.Proofs.ConfigOverlay
import ReleaseTrain.Proofs.WrittenArguments

namespace ReleaseTrain

open Toml Toml.Table

def Arguments.as (a : Arguments) (command : Command) : Arguments := { a with command := command }

def ImagePlan.registryOf (environment : Option String) (i : ImageArguments) (c : ImageConfig) :
    String :=
  (i.registry.or environment).getD c.registry

namespace Plan

def Plans (environment : Option String) (words : List String) (c : Config) (base : Path)
    (r : Except ReleaseError Plan) : Prop :=
  ∃ a, CommandLine.parse environment words = .ok a ∧ ofArguments a c base = r

/-- A release comes to what its packaging and its image come to. Its plan has the parts of both, and
it fails if one of them does, with the error of the packaging before the one of the image. -/
structure Merges (version : String) (release package image : Except ReleaseError Plan) : Prop where
  ok_iff : ∀ plan, release = .ok plan ↔ plan.version = version ∧
    package = .ok ⟨version, plan.package, none⟩ ∧ image = .ok ⟨version, none, plan.image⟩
  error_iff : ∀ e, release = .error e ↔
    package = .error e ∨ (∃ plan, package = .ok plan) ∧ image = .error e

section Parts

variable (a : Arguments) (p : PackageArguments) (i : ImageArguments) (c : Config) (base : Path)

theorem ofArguments_package : ofArguments (a.as (.package p)) c base =
    .ok ⟨a.version, some (PackagePlan.ofArguments p c base), none⟩ := rfl

theorem ofArguments_image : ofArguments (a.as (.image i)) c base =
    (ImagePlan.ofArguments i c base).map fun image ↦ ⟨a.version, none, some image⟩ := by
  change ((ImagePlan.ofArguments i c base).map some >>= _) = _
  cases ImagePlan.ofArguments i c base <;> rfl

theorem ofArguments_release : ofArguments (a.as (.release p i)) c base =
    (ImagePlan.ofArguments i c base).map fun image ↦
      ⟨a.version, some (PackagePlan.ofArguments p c base), some image⟩ := by
  change ((ImagePlan.ofArguments i c base).map some >>= _) = _
  cases ImagePlan.ofArguments i c base <;> rfl

theorem merges : Merges a.version (ofArguments (a.as (.release p i)) c base)
    (ofArguments (a.as (.package p)) c base) (ofArguments (a.as (.image i)) c base) := by
  rw [ofArguments_package, ofArguments_image, ofArguments_release]
  cases ImagePlan.ofArguments i c base with
  | error e => constructor <;> simp [Except.map]
  | ok image =>
    refine ⟨fun plan ↦ ?_, by simp [Except.map]⟩
    constructor
    · rintro ⟨⟩
      exact ⟨rfl, rfl, rfl⟩
    · obtain ⟨version, package, planned⟩ := plan
      rintro ⟨hversion, hpackage, himage⟩
      dsimp only at hversion
      cases hversion
      cases hpackage
      cases himage
      rfl

theorem image_ofArguments_release : (ofArguments (a.as (.release p i)) c base).map Plan.image =
    (ImagePlan.ofArguments i c base).map some := by
  rw [ofArguments_release]
  cases ImagePlan.ofArguments i c base <;> rfl

theorem package_of_release {plan : Plan} (h : ofArguments (a.as (.release p i)) c base = .ok plan) :
    plan.package = some (PackagePlan.ofArguments p c base) :=
  (ofArguments_eq_ok_iff.1 h).2.1

theorem ofArguments_image_eq_error_iff {e : ReleaseError} :
    ofArguments (a.as (.image i)) c base = .error e ↔ e = .config "Registry cannot be empty" ∧
      Text.blank (i.registry.getD c.image.registry) = true := by
  have herror : ImagePlan.ofArguments i c base = .error e ↔ _ := ImagePlan.ofArguments_eq_error_iff
  rw [ofArguments_image, ← herror]
  cases ImagePlan.ofArguments i c base <;> simp [Except.map]

end Parts

/-- Each of an image's settings is the first one given: on the command line, for the registry also
in the environment, and else in the configuration. -/
structure Chosen (environment : Option String) (i : ImageArguments) (c : ImageConfig)
    (image : ImagePlan) : Prop where
  registry : image.registry = ImagePlan.registryOf environment i c
  name : image.name = i.imageName.getD c.name
  platform : image.platform = i.imagePlatform.getD c.platform

/-- The configuration's own are those of the file's section, or else the usual ones. -/
structure FromFile (entries : Table) (c : ImageConfig) : Prop where
  registry : some (.string c.registry) =
    (entries.lookup "registry").or (some (.string "docker.io/library"))
  name : some (.string c.name) = (entries.lookup "name").or (some (.string "remote-agent"))
  platform : some (.string c.platform) =
    (entries.lookup "platform").or (some (.string "linux/amd64"))

theorem fromFile_of_ofToml {document : String} {table : Table} {c : Config}
    (hparse : Toml.parse document = .ok table) (hproject : HasSection table "project")
    (himage : HasSection table "image") (hc : Config.ofToml document = .ok c) :
    FromFile (under table "image") c.image := by
  have htable := ((Config.ofToml_eq_ok_iff hparse).1 hc).1
  have hoverlay := fun key ↦ (Config.overlay_of_ofTable hparse hproject himage htable key).2
  exact ⟨hoverlay "registry", hoverlay "name", hoverlay "platform"⟩

theorem chosen_of_image {a : Arguments} {i : ImageArguments} {environment : Option String}
    {c : Config} {base : Path} {plan : Plan}
    (h : ofArguments (a.as (.image (i.within environment))) c base = .ok plan) :
    ∃ image, plan.image = some image ∧ Chosen environment i c.image image := by
  rw [ofArguments_image] at h
  cases himage : ImagePlan.ofArguments (i.within environment) c base with
  | error e =>
    rw [himage] at h
    cases h
  | ok image =>
    rw [himage] at h
    cases h
    obtain ⟨-, rfl⟩ := ImagePlan.ofArguments_eq_ok_iff.1 himage
    exact ⟨_, rfl, rfl, rfl, rfl⟩

theorem plans_of_writing {a : Arguments} (hconfig : a.config ≠ some "")
    (hverbosity : ¬(a.verbose = true ∧ a.quiet = true)) {command : Command}
    (environment : Option String) (w : (a.as command).Writing) (c : Config) (base : Path)
    {r : Except ReleaseError Plan} : Plans environment w.words c base r ↔
      ofArguments (a.as (command.within environment)) c base = r := by
  have hread : CommandLine.parse environment w.words = .ok (a.as (command.within environment)) :=
    w.parse_words hconfig hverbosity environment
  unfold Plans
  rw [hread]
  simp

/-- A release, its packaging and its image are planned alike: the release has the parts of the other
two and fails where one of them does. Of what can be given for the image the first counts, and only
of that it matters whether it is blank. Nothing that is given for one part has a say in the other.
However the command lines are written, this is what planning comes to. -/
theorem subcommands_alike (a : Arguments) (p : PackageArguments) (i : ImageArguments)
    (environment : Option String) (c : Config) (base : Path) :
    let r := ofArguments (a.as (.release p (i.within environment))) c base
    let x := ofArguments (a.as (.package p)) c base
    let y := ofArguments (a.as (.image (i.within environment))) c base
    Merges a.version r x y ∧
      (∀ e, y = .error e ↔ e = .config "Registry cannot be empty" ∧
        Text.blank (ImagePlan.registryOf environment i c.image) = true) ∧
      (∀ plan, y = .ok plan →
        ∃ image, plan.image = some image ∧ Chosen environment i c.image image) ∧
      (∀ document table, Toml.parse document = .ok table → HasSection table "project" →
        HasSection table "image" → Config.ofToml document = .ok c →
          FromFile (under table "image") c.image) ∧
      (∀ (i' : ImageArguments) environment' image' plan plan', r = .ok plan →
        ofArguments (a.as (.release p (i'.within environment'))) ⟨c.project, image'⟩ base =
          .ok plan' → plan'.package = plan.package) ∧
      (∀ p' project', (ofArguments (a.as (.release p' (i.within environment))) ⟨project', c.image⟩
        base).map Plan.image = r.map Plan.image) ∧
      (a.config ≠ some "" → ¬(a.verbose = true ∧ a.quiet = true) →
        ∀ environment' command (w : (a.as command).Writing) c' s,
          Plans environment' w.words c' base s ↔
            ofArguments (a.as (command.within environment')) c' base = s) := by
  intro r x y
  refine ⟨merges a p (i.within environment) c base,
    fun e ↦ ofArguments_image_eq_error_iff a _ c base, fun plan h ↦ chosen_of_image h, fun document table hparse hproject himage hc ↦
      fromFile_of_ofToml hparse hproject himage hc, ?_, ?_, ?_⟩
  · intro i' environment' image' plan plan' h h'
    rw [package_of_release a p _ c base h, package_of_release a p _ _ base h']
    -- Of the configuration packaging reads the one section that both share.
    rfl
  · intro p' project'
    exact (image_ofArguments_release a p' _ _ base).trans
      (image_ofArguments_release a p (i.within environment) c base).symm
  · intro hconfig hverbosity environment' command w c' s
    exact plans_of_writing hconfig hverbosity environment' w c' base

theorem subcommands_alike_rehearsed :
    let a : Arguments := ⟨"1.2.3", .package ⟨everyPlatform, false⟩, none, false, false⟩
    let i : ImageArguments := { imageName := some "agent" }
    let c : Config := { image := { registry := " ", platform := "linux/arm64" } }
    a.config ≠ some "" ∧ ¬(a.verbose = true ∧ a.quiet = true) ∧
      ∃ plan image, Plans (some "ghcr.io/acme") ["image", "--version=1.2.3", "--image=agent"] c
          ⟨"/work"⟩ (.ok plan) ∧ plan.image = some image ∧
        Chosen (some "ghcr.io/acme") i c.image image ∧ image.registry = "ghcr.io/acme" := by
  intro a i c
  have hconfig : a.config ≠ some "" := by decide
  have hverbosity : ¬(a.verbose = true ∧ a.quiet = true) := by decide
  have hfull (command : Command) : (a.as command).Complete (a.as command).options := .inl (.refl _)
  obtain ⟨-, herror, hchosen, -, -, -, hplans⟩ :=
    subcommands_alike a ⟨everyPlatform, false⟩ i (some "ghcr.io/acme") c ⟨"/work"⟩
  have hy := (hplans hconfig hverbosity (some "ghcr.io/acme") (.image i)
    (hfull (.image i)).writing c _).2 rfl
  have hwords : (hfull (.image i)).writing.words =
      ["image", "--version=1.2.3", "--image=agent"] := by
    change "image" :: (a.as (.image i)).options.map CommandLine.optionWord = _
    decide
  rw [hwords] at hy
  refine ⟨hconfig, hverbosity, ?_⟩
  cases hplan : ofArguments (a.as (.image (i.within (some "ghcr.io/acme")))) c ⟨"/work"⟩ with
  | error e =>
    have hblank := ((herror e).1 hplan).2
    exact absurd hblank (by decide)
  | ok plan =>
    obtain ⟨image, himage, h⟩ := hchosen plan hplan
    exact ⟨plan, image, hplan ▸ hy, himage, h, h.registry⟩

end Plan

end ReleaseTrain
