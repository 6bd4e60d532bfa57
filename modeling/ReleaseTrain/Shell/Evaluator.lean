import ReleaseTrain.Executable
import ReleaseTrain.Shell.Expansion
import ReleaseTrain.Shell.Utility

/-!
Carrying out a script: expansions, redirections, the shell's own commands, functions, and programs,
which may be scripts again. The number of steps bounds how deep all that is nested.
-/

namespace ReleaseTrain.Shell.Run

def nullDevice : Text := textOfString "/dev/null"

def parameter? (name : Text) : Run (Option Text) := do
  let s ← get
  match name with
  | ['?'] => return some (Arithmetic.textOf s.status)
  | ['$'] => return some (Arithmetic.textOf s.identity)
  | ['#'] => return some (Arithmetic.textOf s.arguments.length)
  | ['!'] => return if s.background = 0 then none else some (Arithmetic.textOf (2000 + s.background))
  | ['-'] => return some s.options
  | ['@'] | ['*'] =>
    return if s.arguments.isEmpty then none else some (Builtin.joined s.arguments)
  | _ =>
    match Arithmetic.digits? 10 name with
    | some 0 => return some s.name
    | some n => return s.arguments[n - 1]?
    | none => value? name

def separators : Run Text := do return (← value? (textOfString "IFS")).getD Builtin.blanks

def withoutLastEnds (text : Text) : Text := Text.trimEnd '\n' text

def hasSubstitution (word : Word) : Bool := word.any fun
  | .substitution _ _ => true
  | _ => false

def refusal : FileSystem.Failure → Text
  | failure => Utility.words failure

def cannot (activity : String) (path : Text) (failure : FileSystem.Failure) (absent : String) :
    Run Bool := do
  complainOf (textOfString ("cannot " ++ activity ++ " ") ++ path)
    (match failure with
      | .notFound => absent
      | _ => String.ofList (refusal failure))
  return false

def setSink (descriptor : Nat) (sink : Sink) : Run Unit := modify fun s ↦
  { s with sinks := (descriptor, sink) :: s.sinks.filter (·.1 ≠ descriptor) }

def openSink (descriptor : Nat) (keep : Bool) (path : Text) : Run Bool := do
  if path = nullDevice then do setSink descriptor .nowhere; return true
  if path = textOfString "/dev/stdout" then do setSink descriptor (← sinkOf 1); return true
  if path = textOfString "/dev/stderr" then do setSink descriptor (← sinkOf 2); return true
  match ← openFile path keep with
  | .ok l => do setSink descriptor (.file l); return true
  | .error failure => cannot "create" path failure "Directory nonexistent"

def openInput (path : Text) : Run Bool := do
  if path = nullDevice then do modify fun s ↦ { s with input := [] }; return true
  match ← onFiles (FileSystem.read (bytesOfText path)) with
  | .ok bytes => do modify fun s ↦ { s with input := textOfBytes bytes }; return true
  | .error failure => cannot "open" path failure "No such file"

/-- Makes one descriptor stand for what another one stands for. A dash closes it. -/
def duplicate (descriptor : Nat) (target : Text) : Run Bool := do
  if target = ['-'] then
    if descriptor = 0 then modify fun s ↦ { s with input := [] }
    else setSink descriptor .nowhere
    return true
  match Arithmetic.digits? 10 target with
  | some 0 => return true
  | some n =>
    match (← get).sinks.lookup n with
    | some sink => do setSink descriptor sink; return true
    | none =>
      complainOf target "Bad file descriptor"
      return false
  | none =>
    complain (textOfString "Syntax error: Bad fd number")
    return false

/-- Whether one thing was possible after the other; after the first that was not, no more is done.
-/
def allGo : List (Run Bool) → Run Bool
  | [] => return true
  | step :: steps => do if ← step then allGo steps else return false

/-- Runs another program with the variables that are exported, and with things of its own. -/
def asProgram (part : Run Unit) : Run Unit := do
  let s ← get
  modify fun t ↦ { t with
    bindings := t.bindings.filter (·.2.exported)
    functions := []
    traps := []
    options := []
    watched := false
    loops := 0
    identity := t.identity + 1
    status := 0 }
  let killer ← tryCatch (do ending part; return none) fun
    | .killed signal => return some signal
    | stop => throw stop
  modify fun t ↦ { s with
    files := { t.files with workingDirectory := s.files.workingDirectory }
    input := t.input
    written := t.written
    helds := t.helds
    clock := t.clock
    lingering := t.lingering
    status := match killer with
      | some signal => 128 + signal
      | none => t.status }
  match killer with
  | some 9 => writeTo 2 (textOfString "Killed\n")
  | some 15 => writeTo 2 (textOfString "Terminated\n")
  | _ => return

/-- What the words after the name of a shell ask for: a text of commands, or a file with them. -/
inductive Source
  | text (script : Text) (rest : List Text)
  | file (path : Text) (rest : List Text)
  | input

def source (options : Text) : List Text → Text × Source
  | [] => (options, .input)
  | ['-', '-'] :: path :: rest => (options, .file path rest)
  | ('-' :: c :: cs) :: rest =>
    let options := options ++ (c :: cs).filter (· ≠ 'c')
    if (c :: cs).contains 'c' then
      match rest with
      | script :: rest => (options, .text script rest)
      | [] => (options, .input)
    else source options rest
  | path :: rest => (options, .file path rest)

def directories : Run (List Text.Bytes) := do
  let path := (← value? (textOfString "PATH")).getD (textOfString "/usr/bin:/bin")
  return (Text.pieces ':' path).map bytesOfText

def setAll (assignments : List (Text × Text)) (exported : Bool) : Run Unit := do
  for (name, value) in assignments do
    setVariable name value
    if exported then exportVariable name

def resetAll (before : List (Text × Variable)) (assignments : List (Text × Text)) : Run Unit :=
  modify fun s ↦
    let names := assignments.map (·.1)
    { s with bindings := before.filter (fun v ↦ names.contains v.1) ++
        s.bindings.filter fun v ↦ !names.contains v.1 }

mutual

def expand : Nat → Word → Run (List Piece)
  | 0, _ => throw .outOfTime
  | _ + 1, [] => return []
  | steps + 1, part :: parts => do
    let pieces ← expandPart steps part
    return pieces ++ (← expand steps parts)

def expandPart : Nat → Part → Run (List Piece)
  | 0, _ => throw .outOfTime
  | _ + 1, .plain text => return text.map fun c ↦ .glyph ⟨c, false⟩
  | _ + 1, .quoted text => return .mark :: (literals text).map .glyph
  | steps + 1, .arithmetic expression inQuotes => do
    let text := Piece.toText (← expand steps expression)
    let bindings := (← get).bindings.map fun v ↦ (v.1, v.2.value)
    match Arithmetic.run text bindings with
    | .ok (n, after) =>
      for (name, value) in after.reverse do
        unless bindings.lookup name = some value do setVariable name value
      return Piece.ofValue inQuotes (Arithmetic.textOf n)
    | .error failure =>
      Builtin.abort (match failure with
        | .operandMissing =>
          textOfString "arithmetic expression: expecting primary: \"" ++ text ++ ['"']
        | .tooLong => textOfString "arithmetic expression: expecting EOF: \"" ++ text ++ ['"']
        | .divisionByZero =>
          textOfString "arithmetic expression: division by zero: \"" ++ text ++ ['"']
        | .illegalNumber value => textOfString "Illegal number: " ++ value)
      return []
  | steps + 1, .substitution body inQuotes => do
    let text ← holding (copied steps body)
    return Piece.ofValue inQuotes (withoutLastEnds (text.filter (· ≠ '\x00')))
  | steps + 1, .parameter name operator nullToo word inQuotes => do
    let value ← parameter? name
    if value.isNone && (operator = .plain || operator = .length) && name ≠ ['@'] && name ≠ ['*'] &&
        name ≠ ['!'] && (← get).options.contains 'u' then
      Builtin.abort (name ++ textOfString ": parameter not set")
    let present := value.filter fun v ↦ !(nullToo && v.isEmpty)
    let inner : Run (List Piece) := do
      let pieces ← expand steps word
      return if inQuotes then pieces.map Piece.quote else pieces
    match operator, present with
    | .plain, _ =>
      match name with
      | [c] =>
        if c = '@' || c = '*' then
          return Piece.ofArguments c inQuotes (← separators) (← get).arguments
        return Piece.ofValue inQuotes (value.getD [])
      | _ => return Piece.ofValue inQuotes (value.getD [])
    | .length, _ => return Piece.ofValue inQuotes (Arithmetic.textOf (value.getD []).length)
    | .default, some v | .assign, some v | .complain, some v => return Piece.ofValue inQuotes v
    | .default, none => inner
    | .assign, none =>
      let pieces ← inner
      setVariable name (Piece.toText pieces)
      return Piece.ofValue inQuotes (Piece.toText pieces)
    | .alternative, some _ => inner
    | .alternative, none => return []
    | .complain, none =>
      let message := Piece.toText (← inner)
      Builtin.abort (name ++ [':', ' '] ++
        if message.isEmpty then textOfString "parameter not set" else message)
      return []
    | .cutEnd longest, _ =>
      let pattern := Pattern.ofGlyphs (Piece.toGlyphs (← expand steps word))
      return Piece.ofValue inQuotes (Pattern.cutEnd pattern longest (value.getD []))
    | .cutStart longest, _ =>
      let pattern := Pattern.ofGlyphs (Piece.toGlyphs (← expand steps word))
      return Piece.ofValue inQuotes (Pattern.cutStart pattern longest (value.getD []))

def expandText : Nat → Word → Run Text
  | 0, _ => throw .outOfTime
  | steps + 1, word => do return Piece.toText (← expand steps word)

def expandWords : Nat → List Word → Run (List Text)
  | 0, _ => throw .outOfTime
  | _ + 1, [] => return []
  | steps + 1, word :: words => do
    let pieces ← expand steps word
    let fields := Piece.fields (← separators) pieces none
    let fs := (← get).files
    let plainly := (← get).options.contains 'f'
    return fields.flatMap (Paths.ofField fs plainly) ++ (← expandWords steps words)

def expandAssignments : Nat → List (Text × Word) → Run (List (Text × Text))
  | 0, _ => throw .outOfTime
  | _ + 1, [] => return []
  | steps + 1, (name, word) :: assignments => do
    let value ← expandText steps word
    return (name, value) :: (← expandAssignments steps assignments)

/-- Makes a redirection hold from here on, if that is possible. -/
def redirect : Nat → Redirection → Run Bool
  | 0, _ => throw .outOfTime
  | steps + 1, .mk descriptor direction target => do
    let text ← expandText steps target
    match direction with
    | .output => openSink descriptor false text
    | .append => openSink descriptor true text
    | .input => openInput text
    | .duplicate => duplicate descriptor text
    | .document => do modify fun s ↦ { s with input := text }; return true

def redirected : Nat → List Redirection → Run Unit → Run Unit
  | 0, _, _ => throw .outOfTime
  | steps + 1, rs, part => do
    if rs.isEmpty then part
    else
      let s ← get
      let takesInput := rs.any fun
        | .mk 0 _ _ => true
        | _ => false
      let restore : Run Unit := modify fun t ↦
        { t with sinks := s.sinks, input := if takesInput then s.input else t.input }
      restoring restore do
        if ← allGo (rs.map (redirect steps)) then part else setStatus 2

def evaluateText : Nat → Text → Run Unit
  | 0, _ => throw .outOfTime
  | steps + 1, script => do
    match parse? script with
    | some command => evaluate steps command
    | none => Builtin.abort (textOfString "Syntax error")

def wholeScript : Nat → Run Unit → Run Unit
  | 0, _ => throw .outOfTime
  | steps + 1, part => do
    ending part
    let s ← get
    match s.traps.lookup 0 with
    | some action =>
      set { s with traps := s.traps.filter (·.1 ≠ 0) }
      ending (do evaluateText steps action; setStatus s.status)
    | none => return

/-- A part of a script that a copy of the shell carries out, which takes no trap along. -/
def copied : Nat → Command → Run Unit
  | 0, _ => throw .outOfTime
  | steps + 1, body => apart do
    modify fun s ↦ { s with traps := s.traps.filter (·.2.isEmpty) }
    wholeScript steps (evaluate steps body)

/-- What a shell does that is started under a name. -/
def shell : Nat → (name : Text) → List Text → Run Unit
  | 0, _, _ => throw .outOfTime
  | steps + 1, name, arguments => do
    let (options, source) := source [] arguments
    let here := Builtin.locationText (← get).files.workingDirectory
    setAll [(textOfString "PWD", here)] true
    let run (name : Text) (rest : List Text) (script : Text) : Run Unit := do
      modify fun s ↦
        { s with name := name, arguments := rest, line := 1, options := options }
      wholeScript steps (evaluateText steps script)
    match source with
    | .text script rest => run (rest.headD name) rest.tail script
    | .file path rest =>
      match ← onFiles (FileSystem.read (bytesOfText path)) with
      | .ok bytes => run path rest (textOfBytes bytes)
      | .error _ =>
        modify fun s ↦ { s with name := name, line := 0 }
        complain (textOfString "cannot open " ++ path ++ textOfString ": No such file")
        setStatus 2
    | .input => run name [] (← Utility.takeInput)

/-- Starts a program with other variables, as asked in front of its name. -/
def environment : Nat → List Text → Run Unit
  | 0, _ => throw .outOfTime
  | steps + 1, arguments => do
    match arguments with
    | [] =>
      let exported := (← get).bindings.filter (·.2.exported)
      say (exported.reverse.flatMap fun v ↦ v.1 ++ ['='] ++ v.2.value ++ ['\n'])
      setStatus 0
    | ['-', 'i'] :: rest =>
      modify fun s ↦ { s with bindings := [] }
      environment steps rest
    | word :: rest =>
      if word.contains '=' then
        let name := word.takeWhile (· ≠ '=')
        setAll [(name, word.drop (name.length + 1))] true
        environment steps rest
      else program steps word rest

def launch : Nat → (path : Text) → Executable → (name : Text) → List Text → Run Unit
  | 0, _, _, _, _ => throw .outOfTime
  | steps + 1, path, executable, name, arguments => do
    match executable with
    | .tool tool =>
      let tool := String.ofList (textOfBytes tool)
      if tool = "sh" || tool = "dash" then shell steps name arguments
      else if tool = "env" then environment steps arguments
      else
        match Utility.find? tool with
        | some perform => perform arguments
        | none => setStatus 127
    | .script interpreter argument =>
      match Executable.start (← get).files interpreter with
      | .ok x =>
        launch steps (textOfBytes interpreter) x (textOfBytes interpreter)
          ((argument.map textOfBytes).toList ++ path :: arguments)
      | .error _ => setStatus 127

/-- Runs a program, looked for by its name. A file that cannot be started by itself is taken for a
script. -/
def program : Nat → (name : Text) → List Text → Run Unit
  | 0, _, _ => throw .outOfTime
  | _ + 1, [], _ => do
    complain (textOfString ": Permission denied")
    setStatus 127
  | steps + 1, name, arguments => do
    match Executable.find (← get).files (← directories) (bytesOfText name) with
    | .ok (path, x) => asProgram (launch steps (textOfBytes path) x name arguments)
    | .error .notFound | .error .notDirectory =>
      complainOf name "not found"
      setStatus 127
    | .error .notExecutable => asProgram (shell steps name (name :: arguments))
    | .error failure =>
      complain (name ++ [':', ' '] ++ refusal failure)
      setStatus 126

def replace : Nat → List Text → Run Unit
  | 0, _ => throw .outOfTime
  | _ + 1, [] => setStatus 0
  | steps + 1, name :: arguments => do
    modify fun s ↦ { s with traps := [] }
    match Executable.find (← get).files (← directories) (bytesOfText name) with
    | .ok (path, x) =>
      modify fun s ↦ { s with bindings := s.bindings.filter (·.2.exported), functions := [] }
      ending (launch steps (textOfBytes path) x name arguments)
    | .error .notFound | .error .notDirectory =>
      complain (textOfString "exec: " ++ name ++ textOfString ": not found")
      setStatus 127
    | .error failure =>
      complain (textOfString "exec: " ++ name ++ [':', ' '] ++ refusal failure)
      setStatus 126
    throw (.exit (← get).status)

def call : Nat → Command → List Text → Run Unit
  | 0, _, _ => throw .outOfTime
  | steps + 1, body, arguments => do
    let before ← get
    modify fun s ↦ { s with arguments := arguments, locals := [], loops := 0 }
    let restore : Run Unit := do
      for (name, old) in (← get).locals do
        unsetVariable name
        match old with
        | some v => modify fun s ↦ { s with bindings := (name, v) :: s.bindings }
        | none => pure ()
      modify fun s ↦
        { s with arguments := before.arguments, locals := before.locals, loops := before.loops }
    restoring restore
      (tryCatch (evaluate steps body) fun
        | .leaveFunction code => setStatus code
        | stop => throw stop)

def perform : Nat → (name : Text) → List Text → Run Unit
  | 0, _, _ => throw .outOfTime
  | steps + 1, name, arguments => do
    match String.ofList name with
    | "exec" => replace steps arguments
    | "eval" => evaluateText steps (Builtin.joined arguments)
    | "command" =>
      match arguments with
      | ['-', 'v'] :: name :: _ =>
        if (Builtin.find? (String.ofList name)).isSome then do
          say (name ++ ['\n'])
          setStatus 0
        else match Executable.find (← get).files (← directories) (bytesOfText name) with
          | .ok (path, _) => do say (textOfBytes path ++ ['\n']); setStatus 0
          | .error _ => setStatus 127
      | name :: arguments => perform steps name arguments
      | [] => setStatus 0
    | "." =>
      match ← onFiles (FileSystem.read (bytesOfText (arguments.headD []))) with
      | .ok bytes =>
        tryCatch (evaluateText steps (textOfBytes bytes)) fun
          | .leaveFunction code => setStatus code
          | stop => throw stop
      | .error _ =>
        Builtin.abort (textOfString ".: cannot open " ++ arguments.headD [] ++
          textOfString ": No such file")
    | word =>
      match Builtin.find? word with
      | some builtin => builtin arguments
      | none => program steps name arguments

def attend : Nat → Run Unit
  | 0 => throw .outOfTime
  | steps + 1 => do
    let s ← get
    match s.pending with
    | [] => return
    | signal :: pending =>
      set { s with pending := pending }
      evaluateText steps ((s.traps.lookup signal).getD [])
      setStatus s.status
      attend steps

/-- A command with the words and the assignments already expanded. -/
def start : Nat → List Redirection → List (Text × Text) → List Text → Run Unit
  | 0, _, _, _ => throw .outOfTime
  | steps + 1, rs, assignments, words => do
    match words with
    | [] => redirected steps rs (setAll assignments false)
    | name :: arguments =>
      if name = textOfString "exec" && arguments.isEmpty then
        setStatus (if ← allGo (rs.map (redirect steps)) then 0 else 2)
      else
        redirected steps rs do
          let before := (← get).bindings
          let lasts := Builtin.special.contains (String.ofList name)
          setAll assignments (!lasts)
          restoring (unless lasts do resetAll before assignments)
            (match (← get).functions.lookup name with
              | some body => call steps body arguments
              | none => perform steps name arguments)

def evaluate : Nat → Command → Run Unit
  | 0, _ => throw .outOfTime
  | _ + 1, .nothing => return
  | steps + 1, .simple line assignments words rs => do
    modify fun s ↦ { s with line := line }
    let fields ← expandWords steps words
    let substituted := words.any hasSubstitution || assignments.any (hasSubstitution ·.2)
    if fields.isEmpty && !substituted then setStatus 0
    let values ← expandAssignments steps assignments
    if (← get).options.contains 'x' then
      let shown := values.map (fun (n, v) ↦ n ++ ['='] ++ v) ++ fields
      writeTo 2 (textOfString "+ " ++ Builtin.joined shown ++ ['\n'])
    start steps rs values fields
    attend steps
    stopOnFailure
  | steps + 1, .sequence first second => do
    evaluate steps first
    evaluate steps second
  | steps + 1, .both first second => do
    watching (evaluate steps first)
    if (← get).status = 0 then evaluate steps second
  | steps + 1, .either first second => do
    watching (evaluate steps first)
    if (← get).status ≠ 0 then evaluate steps second
  | steps + 1, .negated body => do
    watching (evaluate steps body)
    setStatus (if (← get).status = 0 then 1 else 0)
  | steps + 1, .background body => beside (evaluate steps body)
  | steps + 1, .pipe first second => do
    let text ← holding (copied steps first)
    let input := (← get).input
    modify fun s ↦ { s with input := text }
    copied steps second
    modify fun s ↦ { s with input := input }
    stopOnFailure
  | steps + 1, .branch condition yes no => do
    watching (evaluate steps condition)
    if (← get).status = 0 then evaluate steps yes
    else
      setStatus 0
      evaluate steps no
  | steps + 1, .loop untilTrue condition body =>
    rounds (do
        watching (evaluate steps condition)
        return ((← get).status == 0) != untilTrue)
      (evaluate steps body) maxRounds 0
  | steps + 1, .each name words body => do
    let values ← match words with
      | some words => expandWords steps words
      | none => pure (← get).arguments
    setStatus 0
    overAll (fun value ↦ do setVariable name value; evaluate steps body) values
  | steps + 1, .choice word cases => do
    let text ← expandText steps word
    choose steps text cases
  | _ + 1, .definition name body => modify fun s ↦
    { s with functions := (name, body) :: s.functions, status := 0 }
  | steps + 1, .group body rs => redirected steps rs (evaluate steps body)
  | steps + 1, .subshell body rs => do
    redirected steps rs (copied steps body)
    stopOnFailure

def choose : Nat → Text → List (List Word × Command) → Run Unit
  | 0, _, _ => throw .outOfTime
  | _ + 1, _, [] => setStatus 0
  | steps + 1, text, (patterns, body) :: cases => do
    if ← fitsAny steps text patterns then
      setStatus 0
      evaluate steps body
    else choose steps text cases

def fitsAny : Nat → Text → List Word → Run Bool
  | 0, _, _ => throw .outOfTime
  | _ + 1, _, [] => return false
  | steps + 1, text, pattern :: patterns => do
    let gs := Piece.toGlyphs (← expand steps pattern)
    if Pattern.fits (Pattern.ofGlyphs gs) text then return true
    fitsAny steps text patterns

end

def maxDepth : Nat := 5000

end ReleaseTrain.Shell.Run
