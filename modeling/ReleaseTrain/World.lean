import ReleaseTrain.FileSystem.Operations
import ReleaseTrain.Invocation
import ReleaseTrain.Platform

/-!
The surroundings of a run: files, the tools that commands start, the operator who may be asked, and
the record of everything that passed between them and the run, in order.
-/

namespace ReleaseTrain

/-- How a command is run: with its output reported line by line, or talking to the terminal. -/
inductive Mode
  | captured
  | interactive
  deriving DecidableEq, Repr

inductive Event
  | reported (report : Report)
  | ran (mode : Mode) (command : Invocation) (result : Except ReleaseError Outcome)
  /-- What a command that talks to the terminal wrote to the standard output it shares. -/
  | printed (output : Text.Bytes)
  | asked (question : String) (answer : Bool)

/-- What running a command comes to: its end, what it reported meanwhile, and what it left. -/
structure Execution (σ : Type) where
  result : Except ReleaseError Outcome
  reports : List Report
  files : FileSystem
  tools : σ
  printed : Text.Bytes := []

/-- What a run is surrounded by. The tools and the operator share a state of any kind. Without a
terminal there may be nobody to ask. -/
structure Surroundings (σ : Type) where
  execute : Mode → Invocation → FileSystem → σ → Execution σ
  interactive : Bool
  answer : String → σ → Bool × σ

structure World (σ : Type) where
  files : FileSystem
  tools : σ
  events : List Event := []

/-- A part of a run. One that fails leaves the world as it was when it failed. -/
abbrev Session (σ : Type) := EStateM ReleaseError (World σ)

namespace Session

variable {σ : Type}

def record (events : List Event) : Session σ Unit :=
  modify fun w ↦ { w with events := w.events ++ events }

def report (r : Report) : Session σ Unit := record [.reported r]

def files : Session σ FileSystem := do return (← get).files

/-- Runs a command and hands its end over, whatever it is. -/
def attempt (env : Surroundings σ) (mode : Mode) (command : Invocation) :
    Session σ (Except ReleaseError Outcome) := fun w ↦
  let x := env.execute mode command w.files w.tools
  let meanwhile := match mode with
    | .captured => x.reports.map .reported
    | .interactive => [.printed x.printed]
  .ok x.result {
    files := x.files
    tools := x.tools
    events := w.events ++ .ran mode command x.result :: meanwhile
  }

def run (env : Surroundings σ) (command : Invocation) : Session σ Outcome := do
  match ← attempt env .captured command with
  | .ok outcome => return outcome
  | .error failure => throw failure

def demand (env : Surroundings σ) (command : Invocation) (refusal : Outcome → ReleaseError) :
    Session σ Unit := do
  let outcome ← run env command
  unless outcome.success do throw (refusal outcome)

def confirm (env : Surroundings σ) (question : String) : Session σ Bool := fun w ↦
  let (answer, tools) := env.answer question w.tools
  .ok answer { w with tools := tools, events := w.events ++ [.asked question answer] }

def onFiles {α : Type} (cause : FileSystem.Failure → ReleaseError) (action : FileSystem.Action α) :
    Session σ α := fun w ↦
  match action w.files with
  | .ok a files => .ok a { w with files := files }
  | .error failure files => .error (cause failure) { w with files := files }

def orThrow {α : Type} : Except ReleaseError α → Session σ α
  | .ok a => pure a
  | .error failure => throw failure

end Session

end ReleaseTrain
