import ReleaseTrain.ChildOutput
import ReleaseTrain.Shell.Evaluator
import ReleaseTrain.Tools
import ReleaseTrain.World

/-!
A machine that commands are run on: which program a name stands for, what the program writes, and
how long it may take.
-/

namespace ReleaseTrain

open Shell (State Stop Written)

structure Machine where
  bindings : List (String × String)
  deriving Repr

namespace Machine

def setting? (m : Machine) (name : String) : Option String := m.bindings.lookup name

def directories (m : Machine) : List Path :=
  searchPath ((m.setting? "PATH").getD "/bin:/usr/bin")

def maxArgument : Nat := 131071

def containsNul (s : String) : Bool := s.toList.contains '\x00'

def badArguments : String := "nul byte found in provided data"

def find (m : Machine) (fs : FileSystem) (command : Invocation) :
    Except String (Text.Bytes × Executable) :=
  if (command.program :: command.arguments).any containsNul then .error badArguments
  else
    match Executable.find fs (m.directories.map Path.bytes) (Text.encode command.program) with
    | .error failure => .error failure.message
    | .ok found =>
      if command.arguments.any fun a ↦ maxArgument < a.utf8ByteSize then
        .error FileSystem.Failure.argumentListTooLong.message
      else .ok found

/-- Whether a reader of lines has met one that is no text. -/
def metNoText (text : Shell.Text) : Bool :=
  (ChildOutput.lines ((Shell.bytesOfText text).map (⟨0, ·⟩))).any fun l ↦
    l.ended && (Text.decode? l.written).isNone

def initial (m : Machine) (mode : Mode) (command : Invocation) (fs : FileSystem)
    (input : Shell.Text) : State where
  files := fs
  bindings := m.bindings.map fun (name, value) ↦
    (Shell.textOfString name, ⟨Shell.textOfString value, true⟩)
  name := Shell.textOfString command.program
  input := input
  limit := command.timeoutMs
  givesUp := match mode with
    | .captured => metNoText
    | .interactive => fun _ ↦ false

/-- How a program ended, unless it took too long. -/
inductive Ending
  | outcome (outcome : Outcome)
  | outOfTime
  deriving DecidableEq, Repr

/-- A command whose output is read lasts until everybody is done who may still write. -/
def ending (mode : Mode) (limit : Nat) : EStateM.Result Stop State Unit → Ending × State
  | .ok () s | .error (.leaveLoop _) s | .error (.nextRound _) s => (within s ⟨some s.status⟩, s)
  | .error (.exit code) s | .error (.leaveFunction code) s => (within s ⟨some code⟩, s)
  | .error (.killed _) s => (within s ⟨none⟩, s)
  | .error .outOfTime s => (.outOfTime, s)
where
  within (s : State) (outcome : Outcome) : Ending :=
    let last := match mode with
      | .captured => max s.clock s.lingering
      | .interactive => s.clock
    if limit ≤ last then .outOfTime else .outcome outcome

def streamOf (sink : Shell.Sink) (written : List Written) : ChildOutput.Stream :=
  (written.filter (·.sink = sink)).flatMap fun w ↦
    (Shell.bytesOfText w.text).map fun b ↦ ⟨w.time, b⟩

/-- The limit in the unit that suits it. -/
def limitText (milliseconds : Nat) : String :=
  let seconds := milliseconds / 1000
  if 120 ≤ seconds then s!"{seconds / 60} minutes"
  else if 1 ≤ seconds then s!"{seconds} seconds"
  else s!"{milliseconds} ms"

def timedOut (command : Invocation) : ReleaseError :=
  .executionFailed command.text s!"timed out after {limitText command.timeoutMs}"

def reports (command : Invocation) (ending : Ending) (written : List Written) : List Report :=
  let read := match ending with
    | .outcome _ => ChildOutput.readAll
    | .outOfTime => ChildOutput.readBefore command.timeoutMs
  let lines := ChildOutput.merge (read (streamOf .output written)) (read (streamOf .errors written))
  lines.map Report.detail ++
    match ending with
    | .outcome _ => []
    | .outOfTime => [.warning s!"{command.program} timed out, terminating"]

def execute (m : Machine) (mode : Mode) (command : Invocation) (fs : FileSystem)
    (keys : Shell.Text) : Execution Shell.Text :=
  match m.find fs command with
  | .error reason => ⟨.error (.executionFailed command.text reason), [], fs, keys, []⟩
  | .ok (path, executable) =>
    let input := match mode with
      | .captured => []
      | .interactive => keys
    let (ending, after) := ending mode command.timeoutMs
      ((Shell.Run.launch Shell.Run.maxDepth (Shell.textOfBytes path) executable
        (Shell.textOfString command.program)
        (command.arguments.map Shell.textOfString)).run (m.initial mode command fs input))
    let written := after.written.reverse.mergeSort fun a b ↦ a.time ≤ b.time
    {
      result := match ending with
        | .outcome outcome => .ok outcome
        | .outOfTime => .error (timedOut command)
      reports := match mode with
        | .captured => reports command ending written
        | .interactive => []
      files := { after.files with workingDirectory := fs.workingDirectory }
      tools := match mode with
        | .captured => keys
        | .interactive => after.input
      printed := match mode with
        | .captured => []
        | .interactive => (streamOf .output written).map ChildOutput.Stamped.byte
    }

end Machine

end ReleaseTrain
