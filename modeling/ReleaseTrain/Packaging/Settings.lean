import ReleaseTrain.Config
import ReleaseTrain.Platform

/-!
The settings of packaging: the configured paths, each resolved against one base directory, and the
places where a platform's files go.
-/

namespace ReleaseTrain

structure Settings where
  agentProject : Path
  companionProject : Path
  agentName : String
  configuration : String
  outputRoot : Path
  stagingRoot : Path
  companionRoot : Path
  extraCleanDirs : List Path
  host : Host := .current
  clean : Bool := false
  deriving DecidableEq, Repr

namespace Settings

def ofConfig (c : ProjectConfig) (base : Path) : Settings where
  agentProject := Path.absolute ⟨c.agentProject⟩ base
  companionProject := Path.absolute ⟨c.companionProject⟩ base
  agentName := c.agentName
  configuration := c.configuration
  outputRoot := Path.absolute ⟨c.outputDir⟩ base
  stagingRoot := Path.absolute ⟨c.stagingDir⟩ base
  companionRoot := Path.absolute ⟨c.companionOutputDir⟩ base
  extraCleanDirs := c.extraCleanDirs.map fun d ↦ Path.absolute ⟨d⟩ base

def agentDir (s : Settings) (p : Platform) : Path := s.outputRoot.join p.id

def agentBinary (s : Settings) (p : Platform) : Path :=
  (s.agentDir p).join (p.binaryName s.agentName)

def bundleDir (s : Settings) (p : Platform) : Path := s.companionRoot.join p.id

def versionMarker (s : Settings) : Path := s.outputRoot.join "version.txt"

end Settings

/-- A platform's own directory for the archive of its companion bundle. -/
def slot (staging : Path) (p : Platform) : Path := staging.join p.id

def slotArchive (staging : Path) (p : Platform) : Path := (slot staging p).join "companion.zip"

end ReleaseTrain
