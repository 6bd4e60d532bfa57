import ReleaseTrain.FileSystem.Operations
import ReleaseTrain.Shell.Syntax

/-!
What a running script has: files, variables, arguments, the text it is given, the streams that it
writes to, and the time that has passed since the start.
-/

namespace ReleaseTrain.Shell

def textOfBytes (bytes : Text.Bytes) : Text := bytes.map fun b ↦ Char.ofNat b.toNat

def bytesOfText (text : Text) : Text.Bytes := text.map fun c ↦ UInt8.ofNat c.toNat

def textOfString (s : String) : Text := textOfBytes (Text.encode s)

inductive Sink
  | output
  | errors
  /-- Kept for another command, under a number of its own. -/
  | held (number : Nat)
  | file (location : Location)
  | nowhere
  deriving DecidableEq, Repr

structure Written where
  sink : Sink
  time : Nat
  text : Text
  deriving Repr

structure Variable where
  value : Text
  exported : Bool := false
  deriving DecidableEq, Repr

/-- Why what follows is not carried out. -/
inductive Stop
  | exit (code : Nat)
  | killed (signal : Nat)
  | outOfTime
  | leaveLoop (levels : Nat)
  | nextRound (levels : Nat)
  | leaveFunction (code : Nat)
  deriving DecidableEq, Repr

structure State where
  files : FileSystem
  bindings : List (Text × Variable) := []
  functions : List (Text × Command) := []
  /-- The name that complaints begin with. -/
  name : Text := []
  line : Nat := 1
  arguments : List Text := []
  status : Nat := 0
  input : Text := []
  sinks : List (Nat × Sink) := [(1, .output), (2, .errors)]
  /-- The last one first. -/
  written : List Written := []
  helds : Nat := 0
  clock : Nat := 0
  /-- When the last command in the background ends. -/
  lingering : Nat := 0
  /-- The time by which everything has to end. -/
  limit : Nat
  mask : Nat := 0o022
  options : Text := []
  /-- Whether a failure is looked at anyway, as in a condition. -/
  watched : Bool := false
  loops : Nat := 0
  locals : List (Text × Option Variable) := []
  /-- What to do on a signal, or on leaving, which has the number zero. -/
  traps : List (Nat × Text) := []
  pending : List Nat := []
  /-- Whether the reader of a stream reads no more once this much of it has come. -/
  givesUp : Text → Bool := fun _ ↦ false
  identity : Nat := 1000
  /-- How many commands have been started in the background, and how the last one ended. -/
  background : Nat := 0
  backgroundStatus : Nat := 0

/-- A part of a script. -/
abbrev Run := EStateM Stop State

namespace Run

def value? (name : Text) : Run (Option Text) := do
  return ((← get).bindings.lookup name).map Variable.value

def setVariable (name value : Text) : Run Unit := modify fun s ↦
  let exported := ((s.bindings.lookup name).map Variable.exported).getD false
  { s with bindings := (name, ⟨value, exported⟩) :: s.bindings.filter (·.1 ≠ name) }

def exportVariable (name : Text) : Run Unit := modify fun s ↦
  match s.bindings.lookup name with
  | some v =>
    { s with bindings := (name, { v with exported := true }) :: s.bindings.filter (·.1 ≠ name) }
  | none => s

def unsetVariable (name : Text) : Run Unit := modify fun s ↦
  { s with bindings := s.bindings.filter (·.1 ≠ name) }

def setStatus (code : Nat) : Run Unit := modify fun s ↦ { s with status := code }

/-- Lets time pass. What would last to the limit is never finished. -/
def wait (milliseconds : Nat) : Run Unit := do
  let s ← get
  if s.limit ≤ s.clock + milliseconds then throw .outOfTime
  set { s with clock := s.clock + milliseconds }

def appendTo (location : Location) (text : Text) : Run Unit := modify fun s ↦
  match s.files.get? location with
  | some (.file content mode) =>
    let all := content.toBytes ++ bytesOfText text
    { s with files := s.files.set location (.file (.bytes all) mode) }
  | _ => s

def givenBefore (s : State) (sink : Sink) : Text :=
  ((s.written.filter fun w ↦ w.sink = sink && w.time < s.clock).reverse.map Written.text).flatten

/-- A stream that nobody reads any more is a broken pipe. -/
def brokenPipe : Nat := 13

def write (sink : Sink) (text : Text) : Run Unit := do
  match sink with
  | .nowhere => return
  | .file location => appendTo location text
  | sink =>
    let s ← get
    if 0 < s.clock && (sink = .output || sink = .errors) && s.givesUp (givenBefore s sink) then
      throw (.killed brokenPipe)
    set { s with written := ⟨sink, s.clock, text⟩ :: s.written }

def sinkOf (descriptor : Nat) : Run Sink := do
  return ((← get).sinks.lookup descriptor).getD .nowhere

def writeTo (descriptor : Nat) (text : Text) : Run Unit := do write (← sinkOf descriptor) text

def say (text : Text) : Run Unit := writeTo 1 text

/-- A complaint names the script and the line. -/
def complain (message : Text) : Run Unit := do
  let s ← get
  writeTo 2 (s.name ++ textOfString s!": {s.line}: " ++ message ++ ['\n'])

def complainOf (subject : Text) (message : String) : Run Unit :=
  complain (subject ++ textOfString (": " ++ message))

def onFiles {α : Type} (action : FileSystem.Action α) : Run (Except FileSystem.Failure α) := fun s ↦
  match action s.files with
  | .ok a files => .ok (.ok a) { s with files := files }
  | .error failure files => .ok (.error failure) { s with files := files }

/-- Makes an empty file in the place of whatever was there, with the rights that are left. -/
def makeFile (path : Text) : FileSystem.Action Location := do
  FileSystem.write (bytesOfText path) (.bytes [])
  match ← FileSystem.find (bytesOfText path) true with
  | .found l _ => return l
  | .free l name => return l ++ [name]

def openFile (path : Text) (keep : Bool) : Run (Except FileSystem.Failure Location) := do
  let s ← get
  match s.files.nodeAt? (bytesOfText path) true with
  | some (.file _ _) =>
    onFiles do
      if keep then
        match ← FileSystem.find (bytesOfText path) true with
        | .found l _ => return l
        | .free l name => return l ++ [name]
      else makeFile path
  | _ =>
    onFiles do
      let l ← makeFile path
      FileSystem.setMode (bytesOfText path) (0o666 &&& (0o777 ^^^ (s.mask &&& 0o777)))
      return l

/-- Runs a part and puts things back as they were, however it ends. -/
def restoring {α : Type} (restore : Run Unit) (part : Run α) : Run α := do
  let result ← tryCatch part fun stop ↦ do
    restore
    throw stop
  restore
  return result

/-- Keeps what a part of a script writes to its output, and hands it over. -/
def holding (part : Run Unit) : Run Text := do
  let s ← get
  let sink := Sink.held s.helds
  set { s with helds := s.helds + 1, sinks := (1, sink) :: s.sinks.filter (·.1 ≠ 1) }
  part
  let after ← get
  let (mine, others) := after.written.partition (·.sink = sink)
  set { after with written := others, sinks := s.sinks }
  return (mine.reverse.map Written.text).flatten

/-- Runs a part to its end, even if it leaves on its own, and keeps its status. -/
def ending (part : Run Unit) : Run Unit :=
  tryCatch part fun
    | .exit code | .leaveFunction code => setStatus code
    | .leaveLoop _ | .nextRound _ => pure ()
    | stop => throw stop

/-- Runs a part on a copy of the script's own things. Files, streams and time go on from there. -/
def apart (part : Run Unit) : Run Unit := do
  let s ← get
  ending part
  modify fun t ↦ { s with
    files := { t.files with workingDirectory := s.files.workingDirectory }
    input := t.input
    written := t.written
    helds := t.helds
    clock := t.clock
    lingering := t.lingering
    pending := t.pending
    background := t.background
    backgroundStatus := t.backgroundStatus
    status := t.status }

/-- Runs a part beside what follows, which begins at the same time. -/
def beside (part : Run Unit) : Run Unit := do
  let s ← get
  modify fun t ↦ { t with input := [] }
  tryCatch (apart part) fun
    | .outOfTime => modify fun t ↦ { t with clock := t.limit }
    | .killed _ => pure ()
    | stop => throw stop
  modify fun t ↦ { s with
    files := { t.files with workingDirectory := s.files.workingDirectory }
    written := t.written
    helds := t.helds
    lingering := max t.lingering t.clock
    background := t.background + 1
    backgroundStatus := t.status
    status := 0 }

/-- Runs a part whose failure is looked at. -/
def watching (part : Run Unit) : Run Unit := do
  let before := (← get).watched
  modify fun s ↦ { s with watched := true }
  restoring (modify fun s ↦ { s with watched := before }) part

/-- Leaves the script after a failure, if it is set to stop on one. -/
def stopOnFailure : Run Unit := do
  let s ← get
  if s.options.contains 'e' && !s.watched && s.status ≠ 0 then throw (.exit s.status)

def round (body : Run Unit) : Run Bool := do
  modify fun s ↦ { s with loops := s.loops + 1 }
  restoring (modify fun s ↦ { s with loops := s.loops - 1 })
    (tryCatch (do body; return true) fun
      | .leaveLoop 1 => return false
      | .leaveLoop (n + 1) => throw (.leaveLoop n)
      | .nextRound 1 => return true
      | .nextRound (n + 1) => throw (.nextRound n)
      | stop => throw stop)

/-- Goes on with a loop while its condition holds, and ends with the status of the last round. A
loop of more rounds than this never ends. -/
def rounds (condition : Run Bool) (body : Run Unit) : Nat → (last : Nat) → Run Unit
  | 0, _ => throw .outOfTime
  | steps + 1, last => do
    if ← condition then
      if ← round body then rounds condition body steps (← get).status
    else setStatus last

def maxRounds : Nat := 100000

def overAll (body : Text → Run Unit) : List Text → Run Unit
  | [] => return
  | value :: values => do if ← round (body value) then overAll body values

end Run

end ReleaseTrain.Shell
