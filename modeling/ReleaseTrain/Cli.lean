import ReleaseTrain.Console
import ReleaseTrain.Machine
import ReleaseTrain.Summary.Outcome
import ReleaseTrain.Terminal

/-!
A run as it is started from a command line. The arguments, the configuration and the tools that are
needed are all looked at before anything is started or changed.
-/

namespace ReleaseTrain

open Session

/-- Where a command line is given: its surroundings, the variables set there, which streams are
terminals, and for how many seconds a run goes on. -/
structure Site (σ : Type) where
  surroundings : Surroundings σ
  setting? : String → Option String
  terminal : Terminal
  seconds : Int := 0

/-- Where the files are a machine's, and the tools its programs, which share the keys typed. -/
def Site.ofMachine (m : Machine) (terminal : Terminal) : Site Shell.Text where
  surroundings := {
    execute := m.execute
    interactive := terminal.input
    answer := terminal.answer }
  setting? := m.setting?
  terminal := terminal

namespace Cli

variable {σ : Type}

def registrySetting : String := "AGENT_RELEASE_REGISTRY"

def programVersion : String := "0.1.0"

def helpPage : String :=
  "Publish the agent for every platform and build, tag and push its image\n\n" ++
  "Usage: agent_release [OPTIONS] <COMMAND>\n\n" ++
  "Commands:\n" ++
  "  package  Publish the agent with its companion bundle\n" ++
  "  image    Build, tag and push the image\n" ++
  "  release  Do both\n"

/-- What is shown instead of a run. Pages that were asked for go to the standard output. -/
def showUsage : CommandLine.UsageError → Shown
  | .displayHelp => .onOutput helpPage
  | .displayVersion => .onOutput s!"agent_release {programVersion}\n"
  | _ => .onErrors helpPage

def baseDirectory (fs : FileSystem) : Path :=
  ⟨Text.lossy (FileSystem.joinNames true fs.workingDirectory)⟩

def directories (site : Site σ) : List Path := searchPath ((site.setting? "PATH").getD "")

def homeDirectory (site : Site σ) : Option Path :=
  (site.setting? "HOME").bind fun home ↦ if home.isEmpty then none else some ⟨home⟩

def requireTool (fs : FileSystem) (site : Site σ) (tool : String) : Except ReleaseError Unit := do
  let _ ← Tools.require fs (homeDirectory site) (directories site) tool

def toolsOf (plan : Plan) : List String :=
  (plan.package.map fun p ↦ "dotnet" :: if p.settings.host = .macos then ["ditto"] else []).getD []
    ++ if plan.image.isSome then ["docker"] else []

/-- The plan that the arguments make, if nothing stands against carrying it out. The version comes
first, and the tools come last. -/
def prepare (fs : FileSystem) (site : Site σ) (a : Arguments) : Except ReleaseError Plan := do
  let _ ← Version.parse a.version
  let base := baseDirectory fs
  let config ← Config.discover fs (a.config.map Path.mk) base
  let plan ← Plan.ofArguments a config base
  match plan.package with
  | some p => Platform.checkSelector p.selector
  | none => pure ()
  (toolsOf plan).forM (requireTool fs site)
  return plan

def execute (site : Site σ) (a : Arguments) : Session σ RunOutcome := do
  let plan ← orThrow (prepare (← files) site a)
  let credentials := credentialPath (site.setting? "DOCKER_CONFIG") (site.setting? "HOME")
  Pipeline.run site.surroundings (some credentials) plan

/-- How a run ended, what it has shown, and what it left. -/
structure Ending (σ : Type) where
  code : Nat
  shown : Shown
  files : FileSystem
  tools : σ

def console (site : Site σ) (a : Arguments) : Console where
  verbose := a.verbose
  quiet := a.quiet
  colours := site.terminal.output && (site.setting? "NO_COLOR").isNone

def runArguments (site : Site σ) (a : Arguments) (fs : FileSystem) (tools : σ) : Ending σ :=
  let c := console site a
  match a.complaint? with
  | some complaint => ⟨1, c.showReport (.failure complaint), fs, tools⟩
  | none =>
    match execute site a ⟨fs, tools, []⟩ with
    | .ok outcome w =>
      ⟨0, c.showEvents w.events ++ c.showReports (Summary.ofOutcome outcome site.seconds),
        w.files, w.tools⟩
    | .error failure w =>
      ⟨failure.exitCode, c.showEvents w.events ++ c.showReports (Summary.ofError failure),
        w.files, w.tools⟩

def run (site : Site σ) (words : List String) (fs : FileSystem) (tools : σ) : Ending σ :=
  match CommandLine.parse (site.setting? registrySetting) words with
  | .ok a => runArguments site a fs tools
  | .error usage => ⟨usage.exitCode, showUsage usage, fs, tools⟩

end Cli

end ReleaseTrain
