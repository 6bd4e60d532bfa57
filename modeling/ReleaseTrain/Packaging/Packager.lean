import ReleaseTrain.Packaging.Commands
import ReleaseTrain.Packaging.Files

/-!
Packaging: for each platform in turn its companion bundle is published and archived, then its agent
is published with that archive and looked for; when all are there, the version is marked. Nothing
that was made is taken back when a later step fails.
-/

namespace ReleaseTrain

/-- A verified executable and the archive that went into it. -/
structure Artifact where
  platform : Platform
  executable : Path
  companionArchive : Path
  size : Nat
  sha256 : String
  deriving DecidableEq, Repr

structure PackageReport where
  version : Version
  artifacts : List Artifact
  versionMarker : Path
  deriving DecidableEq, Repr

namespace Packaging

variable {σ : Type}

open Session

/-- Drops an archive that an earlier run left in the platform's slot. -/
def clearSlot (staging : Path) (p : Platform) : Session σ Unit :=
  removeFile (slotArchive staging p)

def clearSlots (staging : Path) : Session σ Unit := emptyDirectory staging

/-- Archives a bundle into the platform's slot. On macOS the system's own tool does it for macOS
bundles, because it keeps what only that system stores with a file. -/
def archiveBundle (env : Surroundings σ) (staging : Path) (p : Platform) (bundle : Path)
    (host : Host) : Session σ Path := do
  let target := slotArchive staging p
  makeDirectories (slot staging p)
  if host = .macos ∧ p.isMac then
    let command := dittoCommand bundle target
    demand env command fun _ ↦
      .executionFailed command.text s!"Failed to archive companion bundle for {p.id}"
  else
    archive bundle target
  report (.verbose s!"Archived companion bundle to {target.text}")
  return target

def cleanExtra : List Path → Session σ Unit
  | [] => return
  | dir :: dirs => do
    report (.verbose s!"Removing {dir.text}")
    removeDirectory dir
    cleanExtra dirs

def clean (s : Settings) : Session σ Unit := do
  report (.progress "Cleaning previous build output...")
  removeDirectory s.outputRoot
  clearSlots s.stagingRoot
  removeDirectory s.companionRoot
  cleanExtra s.extraCleanDirs
  report (.success "Clean complete")

/-- Removes what could be taken for a product of this run. -/
def clearPlatform (s : Settings) (p : Platform) : Session σ Unit := do
  clearSlot s.stagingRoot p
  removeDirectory (s.bundleDir p)
  removeFile (s.agentBinary p)

def publishCompanion (env : Surroundings σ) (s : Settings) (v : Version) (p : Platform) :
    Session σ Unit := do
  report (.progress s!"Publishing companion bundle for {p.id}...")
  demand env (companionCommand s p v) fun outcome ↦ .companionBuildFailed p.id outcome.code

def publishAgent (env : Surroundings σ) (s : Settings) (v : Version) (archive : Path)
    (p : Platform) : Session σ Unit := do
  report (.progress s!"Publishing agent for {p.id}...")
  demand env (agentCommand s p v archive) fun outcome ↦ .agentBuildFailed p.id outcome.code

/-- A publish that ended well is no proof that the executable was written. -/
def verify (s : Settings) (archive : Path) (p : Platform) : Session σ Artifact := do
  let executable := s.agentBinary p
  unless ← isFile executable do throw (.artifactNotFound p.id executable)
  let size := (← read executable).length
  let sha256 ← digest executable
  report (.success s!"{executable.text} ({size} bytes)")
  report (.verbose s!"SHA256: {sha256}")
  return ⟨p, executable, archive, size, sha256⟩

def packagePlatform (env : Surroundings σ) (s : Settings) (v : Version) (p : Platform) :
    Session σ Artifact := do
  report (.heading s!"Building {p.text}")
  clearPlatform s p
  publishCompanion env s v p
  let archive ← archiveBundle env s.stagingRoot p (s.bundleDir p) s.host
  publishAgent env s v archive p
  verify s archive p

def packageEach (env : Surroundings σ) (s : Settings) (v : Version) :
    List Platform → Session σ (List Artifact)
  | [] => return []
  | p :: ps => do
    let artifact ← packagePlatform env s v p
    return artifact :: (← packageEach env s v ps)

def markVersion (s : Settings) (v : Version) : Session σ Unit := do
  writeText s.versionMarker v.text
  report (.verbose s!"Wrote version marker {s.versionMarker.text} ({v.text})")

def package (env : Surroundings σ) (s : Settings) (ps : List Platform) (v : Version) :
    Session σ PackageReport := do
  if s.clean then clean s
  let artifacts ← packageEach env s v ps
  markVersion s v
  return ⟨v, artifacts, s.versionMarker⟩

end Packaging

end ReleaseTrain
