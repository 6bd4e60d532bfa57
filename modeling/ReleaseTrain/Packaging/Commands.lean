import ReleaseTrain.Invocation
import ReleaseTrain.Packaging.Settings
import ReleaseTrain.Version

/-!
The commands that publish a platform's companion bundle and its agent, and the command that
archives a bundle on macOS.
-/

namespace ReleaseTrain

def publishTimeoutMs : Nat := 1800000

def publishArguments (s : Settings) (project : Path) (p : Platform) (v : Version) (output : Path) :
    List String :=
  ["publish", project.text, "-c", s.configuration, "-r", p.id, "--self-contained", "true",
    "-o", output.text, s!"-p:Version={v.text}", s!"-p:FileVersion={v.fileVersion}"]

def companionCommand (s : Settings) (p : Platform) (v : Version) : Invocation where
  program := "dotnet"
  arguments := publishArguments s s.companionProject p v (s.bundleDir p)
  timeoutMs := publishTimeoutMs

/-- The agent is one compressed file that needs nothing installed, with the companion's archive
inside. -/
def agentCommand (s : Settings) (p : Platform) (v : Version) (archive : Path) : Invocation where
  program := "dotnet"
  arguments := publishArguments s s.agentProject p v (s.agentDir p) ++
    ["-p:PublishSingleFile=true", "-p:UseAppHost=true",
      "-p:IncludeAllContentForSelfExtract=true", "-p:IncludeAppSettingsInSingleFile=true",
      "-p:EnableCompressionInSingleFile=true", s!"-p:CompanionArchivePath={archive.text}"]
  timeoutMs := publishTimeoutMs

/-- Keeps what only macOS stores with a file. -/
def dittoCommand (bundle archive : Path) : Invocation where
  program := "ditto"
  arguments := ["-c", "-k", "--sequesterRsrc", "--keepParent", bundle.text, archive.text]

end ReleaseTrain
