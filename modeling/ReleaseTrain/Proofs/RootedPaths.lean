import Mathlib.Data.List.Forall2
import ReleaseTrain.Proofs.IssuedCommands
import ReleaseTrain.Proofs.LexicalPaths

namespace ReleaseTrain

open Session

def ProjectConfig.paths (c : ProjectConfig) : List Path :=
  [⟨c.agentProject⟩, ⟨c.companionProject⟩, ⟨c.outputDir⟩, ⟨c.stagingDir⟩, ⟨c.companionOutputDir⟩] ++
    c.extraCleanDirs.map Path.mk

def ImageConfig.paths (c : ImageConfig) : List Path := [⟨c.dockerfile⟩, ⟨c.context⟩]

def Settings.paths (s : Settings) : List Path :=
  [s.agentProject, s.companionProject, s.outputRoot, s.stagingRoot, s.companionRoot] ++
    s.extraCleanDirs

def ImagePlan.paths (i : ImagePlan) : List Path := [i.dockerfile, i.context]

/-- The value of the property that names the companion's archive. -/
def archiveProperty? (argument : String) : Option String :=
  (Text.after? "-p:CompanionArchivePath=".toList argument.toList).map String.ofList

/-- A command, and the paths in it by the places where its program looks for paths. -/
inductive HandsPaths : Invocation → List String → Prop
  | publish (project configuration id output : String) (properties : List String) (t : Nat) :
    HandsPaths ⟨"dotnet", ["publish", project, "-c", configuration, "-r", id, "--self-contained",
      "true", "-o", output] ++ properties, t⟩
      (project :: output :: properties.filterMap archiveProperty?)
  | archive (bundle archive : String) (t : Nat) :
    HandsPaths ⟨"ditto", ["-c", "-k", "--sequesterRsrc", "--keepParent", bundle, archive], t⟩
      [bundle, archive]
  | build (builder : List String) (platform dockerfile configuration version reference : String)
    (cache : List String) (context : String) (t : Nat)
    (hbuilder : builder = ["build"] ∨ builder = ["buildx", "build"])
    (hcache : cache = [] ∨ cache = ["--no-cache"]) :
    HandsPaths ⟨"docker", builder ++ ["--platform", platform, "-f", dockerfile, "--build-arg",
      configuration, "--build-arg", version, "-t", reference] ++ cache ++ [context], t⟩
      [dockerfile, context]
  | pathless (verb : String) (rest : List String) (t : Nat) (hverb : verb ≠ "build")
    (hverb' : verb ≠ "buildx") : HandsPaths ⟨"docker", verb :: rest, t⟩ []

/-- Every path that the command hands over begins at the root, and so it is no option. -/
def Invocation.Rooted (i : Invocation) : Prop :=
  ∃ paths, HandsPaths i paths ∧ ∀ p ∈ paths, (⟨p⟩ : Path).isAbsolute = true

theorem archiveProperty?_append (t : String) :
    archiveProperty? ("-p:CompanionArchivePath=" ++ t) = some t := by
  unfold archiveProperty?
  rw [String.toList_append, Text.after?_eq_some_iff.2 rfl, Option.map_some, String.ofList_toList]

theorem archiveProperty?_eq_none (first t : String)
    (h : ∀ rest, Text.after? "-p:CompanionArchivePath=".toList (first.toList ++ rest) = none) :
    archiveProperty? (first ++ t) = none := by
  unfold archiveProperty?
  rw [String.toList_append, h, Option.map_none]

theorem archiveProperty?_versions (v : Version) :
    [s!"-p:Version={v.text}", s!"-p:FileVersion={v.fileVersion}"].filterMap archiveProperty? = [] := by
  have hversion : archiveProperty? s!"-p:Version={v.text}" = none :=
    archiveProperty?_eq_none "-p:Version=" v.text fun rest ↦ by simp [Text.after?]
  have hfile : archiveProperty? s!"-p:FileVersion={v.fileVersion}" = none :=
    archiveProperty?_eq_none "-p:FileVersion=" v.fileVersion fun rest ↦ by simp [Text.after?]
  rw [List.filterMap_cons_none hversion, List.filterMap_cons_none hfile, List.filterMap_nil]

namespace HandsPaths

variable (s : Settings) (p : Platform) (v : Version)

theorem companionCommand : HandsPaths (companionCommand s p v)
    [s.companionProject.text, (s.bundleDir p).text] := by
  have h := publish s.companionProject.text s.configuration p.id (s.bundleDir p).text
    [s!"-p:Version={v.text}", s!"-p:FileVersion={v.fileVersion}"] publishTimeoutMs
  rw [archiveProperty?_versions] at h
  exact h

theorem agentCommand (archive : Path) : HandsPaths (agentCommand s p v archive)
    [s.agentProject.text, (s.agentDir p).text, archive.text] := by
  have h := publish s.agentProject.text s.configuration p.id (s.agentDir p).text
    ([s!"-p:Version={v.text}", s!"-p:FileVersion={v.fileVersion}"] ++
      (["-p:PublishSingleFile=true", "-p:UseAppHost=true",
        "-p:IncludeAllContentForSelfExtract=true", "-p:IncludeAppSettingsInSingleFile=true",
        "-p:EnableCompressionInSingleFile=true"] ++ [s!"-p:CompanionArchivePath={archive.text}"]))
    publishTimeoutMs
  have hfixed : ["-p:PublishSingleFile=true", "-p:UseAppHost=true",
      "-p:IncludeAllContentForSelfExtract=true", "-p:IncludeAppSettingsInSingleFile=true",
      "-p:EnableCompressionInSingleFile=true"].filterMap archiveProperty? = [] := by decide +kernel
  have harchive : [s!"-p:CompanionArchivePath={archive.text}"].filterMap archiveProperty? =
      [archive.text] := List.filterMap_cons_some (archiveProperty?_append archive.text)
  rw [List.filterMap_append, archiveProperty?_versions, List.filterMap_append, hfixed, harchive] at h
  exact h

theorem buildCommand (r : BuildRequest) :
    HandsPaths r.command [r.dockerfile.text, r.context.text] := by
  have h := build (if r.isMultiPlatform then ["buildx", "build"] else ["build"]) r.platform
    r.dockerfile.text s!"BUILD_CONFIGURATION={r.buildConfiguration}"
    s!"CURRENT_VERSION={r.version.text}" r.image.text (if r.noCache then ["--no-cache"] else [])
    r.context.text 1800000 (by split <;> simp) (by split <;> simp)
  exact h

end HandsPaths

namespace Invocation

theorem rooted_of_pathless (verb : String) (rest : List String) (t : Nat) (h : verb ≠ "build")
    (h' : verb ≠ "buildx") : (Invocation.mk "docker" (verb :: rest) t).Rooted :=
  ⟨[], .pathless verb rest t h h', by simp⟩

end Invocation

theorem Publish.rooted_of_mem_commands {image : BuiltImage} {options : PublishOptions}
    {agreed : Option Bool} {step : Mode × Invocation} (h : step ∈ commands image options agreed) :
    step.2.Rooted := by
  simp only [commands_eq_references, List.mem_ite_nil_left, List.mem_append,
    List.mem_ite_nil_right, List.mem_singleton, List.mem_map] at h
  obtain ⟨-, ⟨-, rfl⟩ | ⟨reference, -, rfl⟩⟩ := h
  · exact Invocation.rooted_of_pathless "login" _ _ (by decide) (by decide)
  · exact Invocation.rooted_of_pathless "push" _ _ (by decide) (by decide)

theorem Image.rooted_of_mem_buildCommands {request : BuildRequest} {step : Mode × Invocation}
    (hrequest : request.command.Rooted) (h : step ∈ buildCommands request) : step.2.Rooted := by
  unfold buildCommands at h
  simp only [List.mem_cons, List.mem_map, Option.mem_toList] at h
  obtain rfl | rfl | ⟨latest, -, rfl⟩ := h
  · exact Invocation.rooted_of_pathless "info" _ _ (by decide) (by decide)
  · exact hrequest
  · exact Invocation.rooted_of_pathless "tag" _ _ (by decide) (by decide)

/-- The commands that package a platform, whatever the host. -/
def Settings.publishCommands (s : Settings) (p : Platform) (v : Version) : List Invocation :=
  [companionCommand s p v, dittoCommand (s.bundleDir p) (slotArchive s.stagingRoot p),
    agentCommand s p v (slotArchive s.stagingRoot p)]

theorem Packaging.mem_publishCommands {s : Settings} {v : Version} {p : Platform}
    {step : Mode × Invocation} (h : step ∈ steps s v p) : step.2 ∈ s.publishCommands p v := by
  unfold steps at h
  simp only [List.mem_cons, List.mem_append, List.mem_ite_nil_right, List.not_mem_nil,
    or_false] at h
  obtain rfl | ⟨-, rfl⟩ | rfl := h
  · exact List.mem_cons_self
  · exact List.mem_cons_of_mem _ List.mem_cons_self
  · exact List.mem_cons_of_mem _ (List.mem_cons_of_mem _ List.mem_cons_self)

theorem Settings.rooted_publishCommands {s : Settings}
    (hs : ∀ q ∈ s.paths, q.isAbsolute = true) (p : Platform) (v : Version) :
    ∀ command ∈ s.publishCommands p v, command.Rooted := by
  simp only [paths, List.cons_append, List.nil_append, List.forall_mem_cons] at hs
  obtain ⟨hagent, hcompanion, houtput, hstaging, hbundles, -⟩ := hs
  have hbundle : (s.bundleDir p).isAbsolute = true := Path.isAbsolute_join hbundles _
  have hslot : (slotArchive s.stagingRoot p).isAbsolute = true :=
    Path.isAbsolute_join (Path.isAbsolute_join hstaging _) _
  have hdir : (s.agentDir p).isAbsolute = true := Path.isAbsolute_join houtput _
  simp only [publishCommands, List.forall_mem_cons]
  refine ⟨⟨_, .companionCommand s p v, ?_⟩, ⟨_, .archive _ _ _, ?_⟩,
    ⟨_, .agentCommand s p v _, ?_⟩, by simp⟩
  · exact List.forall_mem_cons.2 ⟨hcompanion, List.forall_mem_singleton.2 hbundle⟩
  · exact List.forall_mem_cons.2 ⟨hbundle, List.forall_mem_singleton.2 hslot⟩
  · exact List.forall_mem_cons.2 ⟨hagent, List.forall_mem_cons.2
      ⟨hdir, List.forall_mem_singleton.2 hslot⟩⟩

theorem ImagePlan.rooted_command {i : ImagePlan} (hi : ∀ q ∈ i.paths, q.isAbsolute = true)
    (v : Version) : (i.request v).command.Rooted := by
  simp only [paths, List.forall_mem_cons] at hi
  exact ⟨_, .buildCommand _, List.forall_mem_cons.2 ⟨hi.1, List.forall_mem_singleton.2 hi.2.1⟩⟩

theorem Settings.paths_ofConfig (c : ProjectConfig) (base : Path) :
    (ofConfig c base).paths = c.paths.map fun p ↦ p.absolute base := by
  simp [paths, ofConfig, ProjectConfig.paths]

theorem Path.forall₂_resolved {base : Path} (h : base.Normal) (written : List Path) :
    List.Forall₂ (Resolved base) written (written.map fun p ↦ p.absolute base) :=
  List.forall₂_map_right_iff.2 (List.forall₂_same.2 fun p _ ↦ resolved_absolute h p)

namespace Plan

variable {a : Arguments} {c : Config} {base : Path} {plan : Plan}

theorem paths_of_package {package : PackagePlan} (h : ofArguments a c base = .ok plan)
    (hp : plan.package = some package) :
    package.settings.paths = c.project.paths.map fun p ↦ p.absolute base := by
  rw [(ofArguments_eq_ok_iff.1 h).2.1] at hp
  obtain ⟨given, -, rfl⟩ := Option.map_eq_some_iff.1 hp
  exact Settings.paths_ofConfig c.project base

theorem paths_of_image {i : ImagePlan} (h : ofArguments a c base = .ok plan)
    (hi : plan.image = some i) : i.paths = c.image.paths.map fun p ↦ p.absolute base := by
  obtain ⟨given, -, himage⟩ := image_of_ofArguments h hi
  obtain ⟨-, rfl⟩ := ImagePlan.ofArguments_eq_ok_iff.1 himage
  rfl

theorem rooted_of_mem_commands {answer : String → Option Bool} {step : Mode × Invocation}
    (hpackage : ∀ package, plan.package = some package →
      ∀ q ∈ package.settings.paths, q.isAbsolute = true)
    (himage : ∀ i, plan.image = some i → ∀ q ∈ i.paths, q.isAbsolute = true)
    (h : step ∈ plan.commands answer) : step.2.Rooted := by
  unfold commands at h
  split at h
  · next v hv =>
    obtain h | h := List.mem_append.1 h
    · obtain ⟨package, p, hp, hstep⟩ := mem_packagingSteps h
      exact Settings.rooted_publishCommands (hpackage package hp) p v _
        (Packaging.mem_publishCommands hstep)
    · cases hi : plan.image with
      | none => simp [hi] at h
      | some i =>
        simp only [hi, Option.map_some, Option.getD_some] at h
        rw [ImagePlan.commands_eq, List.mem_ite_nil_left, List.mem_append] at h
        obtain ⟨-, hbuild | hpublish⟩ := h
        · exact Image.rooted_of_mem_buildCommands (ImagePlan.rooted_command (himage i hi) v) hbuild
        · exact Publish.rooted_of_mem_commands hpublish
  · cases h

/-- Every path of a plan is normal and the one that the configured path, joined to the base, leads
to by its text; resolved once more it stays the same. So every path that a command hands to its
program begins at the root, whatever is packaged or built, and whatever a run of the plan does. -/
theorem rooted_paths (hbase : base.Normal) (h : ofArguments a c base = .ok plan) :
    (∀ package, plan.package = some package →
      List.Forall₂ (Path.Resolved base) c.project.paths package.settings.paths ∧
        ∀ p v, ∀ command ∈ package.settings.publishCommands p v, command.Rooted) ∧
      (∀ i, plan.image = some i →
        List.Forall₂ (Path.Resolved base) c.image.paths i.paths ∧
          ∀ v, (i.request v).command.Rooted) ∧
      ∀ (σ : Type) (env : Surroundings σ) (credentials : Option Path) (w : World σ),
        ∀ call ∈ calls (exchanged (Pipeline.run env credentials plan) w), call.command.Rooted := by
  have hresolved (written : List Path) :
      ∀ q ∈ written.map fun p ↦ p.absolute base, q.isAbsolute = true := by
    simp only [List.forall_mem_map]
    exact fun p _ ↦ (Path.resolved_absolute hbase p).normal.absolute
  have hpackage (package : PackagePlan) (hp : plan.package = some package) :
      ∀ q ∈ package.settings.paths, q.isAbsolute = true :=
    paths_of_package h hp ▸ hresolved c.project.paths
  have himage (i : ImagePlan) (hi : plan.image = some i) : ∀ q ∈ i.paths, q.isAbsolute = true :=
    paths_of_image h hi ▸ hresolved c.image.paths
  refine ⟨fun package hp ↦ ⟨?_, ?_⟩, fun i hi ↦ ⟨?_, ?_⟩, fun σ env credentials w call hcall ↦ ?_⟩
  · exact paths_of_package h hp ▸ Path.forall₂_resolved hbase c.project.paths
  · exact Settings.rooted_publishCommands (hpackage package hp)
  · exact paths_of_image h hi ▸ Path.forall₂_resolved hbase c.image.paths
  · exact ImagePlan.rooted_command (himage i hi)
  · have hturn := (Pipeline.course_run env credentials plan w).inTurn
    exact rooted_of_mem_commands hpackage himage (hturn.order_mem hcall)

theorem rooted_paths_rehearsed :
    let a : Arguments := ⟨"1.2.3", .package ⟨everyPlatform, false⟩, none, false, false⟩
    let c : Config := { project := {
      agentProject := "../A.csproj", companionProject := ".", outputDir := "../../../../dist/.",
      stagingDir := "/tmp/..//stage", companionOutputDir := "", extraCleanDirs := ["a/../..//-b"] } }
    let base : Path := ⟨"/work/x"⟩
    let package := PackagePlan.ofArguments ⟨everyPlatform, false⟩ c base
    base.Normal ∧ ofArguments a c base = .ok ⟨"1.2.3", some package, none⟩ ∧
      package.settings.paths = [⟨"/work/A.csproj"⟩, ⟨"/work/x"⟩, ⟨"/dist"⟩, ⟨"/stage"⟩, ⟨"/work/x"⟩,
        ⟨"/work/-b"⟩] ∧
      List.Forall₂ (Path.Resolved base) c.project.paths package.settings.paths := by
  intro a c base package
  have hbase : base.Normal := ⟨by decide, by decide, by decide⟩
  have hplan : ofArguments a c base = .ok ⟨"1.2.3", some package, none⟩ := rfl
  exact ⟨hbase, hplan, by decide +kernel, ((rooted_paths hbase hplan).1 package rfl).1⟩

end Plan

end ReleaseTrain
