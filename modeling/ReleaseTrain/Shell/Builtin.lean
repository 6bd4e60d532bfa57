import ReleaseTrain.Shell.Condition
import ReleaseTrain.Shell.Format
import ReleaseTrain.Shell.Pattern
import ReleaseTrain.Shell.Reader

/-!
Commands that belong to the shell itself and that run no other command.
-/

namespace ReleaseTrain.Shell.Builtin

open Run

def signals : List (String × Nat) :=
  [("EXIT", 0), ("HUP", 1), ("INT", 2), ("QUIT", 3), ("ABRT", 6), ("KILL", 9), ("USR1", 10),
    ("SEGV", 11), ("USR2", 12), ("PIPE", 13), ("ALRM", 14), ("TERM", 15), ("CHLD", 17),
    ("CONT", 18)]

/-- Signals that do nothing unless there is a trap for them. -/
def harmless : List Nat := [0, 17, 18, 23, 28]

def signal? (text : Text) : Option Nat :=
  match Arithmetic.digits? 10 text with
  | some n => some n
  | none =>
    let name := ((Text.after? ['S', 'I', 'G'] text).getD text)
    (signals.find? fun s ↦ s.1.toList = name).map (·.2)

def succeedIf (b : Bool) : Run Unit := setStatus (if b then 0 else 1)

/-- A failure that ends the script. -/
def abort (message : Text) : Run Unit := do
  complain message
  setStatus 2
  throw (.exit 2)

def count (name : String) (absent : Nat) : List Text → Run Nat
  | [] => return absent
  | text :: _ =>
    match Arithmetic.digits? 10 text with
    | some n => return n
    | none => do
      abort (textOfString (name ++ ": Illegal number: ") ++ text)
      return absent

def joined (words : List Text) : Text := List.intercalate [' '] words

def echo (arguments : List Text) : Run Unit := do
  let (newline, words) := match arguments with
    | ['-', 'n'] :: rest => (false, rest)
    | words => (true, words)
  let (text, ended) := Format.interpretAll (joined words)
  say (if newline && !ended then text ++ ['\n'] else text)
  setStatus 0

def printf (arguments : List Text) : Run Unit := do
  match arguments with
  | [] | [['-', '-']] =>
    complain (textOfString "printf: usage: printf format [arg ...]")
    setStatus 2
  | ['-', '-'] :: format :: words => fill format words
  | ('-' :: c :: _) :: _ =>
    complain (textOfString "printf: Illegal option -" ++ [c])
    setStatus 2
  | format :: words => fill format words
where
  fill (format : Text) (words : List Text) : Run Unit := do
    let r := Format.run format words
    say r.text
    for (subject, complaint) in r.complaints do
      complainOf (textOfString "printf: " ++ subject) complaint
    match r.invalid with
    | some [] =>
      complain (textOfString "printf: missing format character")
      setStatus 2
    | some text =>
      complainOf (textOfString "printf: %" ++ text) "invalid directive"
      setStatus 2
    | none => succeedIf r.complaints.isEmpty

def test (name : String) (arguments : List Text) : Run Unit := do
  match Condition.holds (← get).files arguments with
  | .ok b => succeedIf b
  | .error message =>
    complainOf (textOfString name) (String.ofList message)
    setStatus 2

def bracket (arguments : List Text) : Run Unit := do
  if arguments.getLast? = some [']'] then test "[" arguments.dropLast
  else
    complain (textOfString "[: missing ]")
    setStatus 2

def shift (arguments : List Text) : Run Unit := do
  let n ← count "shift" 1 arguments
  let s ← get
  if s.arguments.length < n then abort (textOfString "shift: can't shift that many")
  set { s with arguments := s.arguments.drop n, status := 0 }

def umask (arguments : List Text) : Run Unit := do
  match arguments with
  | [] =>
    let digits := Nat.toDigits 8 (← get).mask
    say (List.replicate (4 - digits.length) '0' ++ digits ++ ['\n'])
    setStatus 0
  | text :: _ =>
    match Arithmetic.digits? 8 text with
    | some mask => modify fun s ↦ { s with mask := mask, status := 0 }
    | none => abort (textOfString "umask: Illegal number: " ++ text)

/-- The next line of the input, whether it had an end, and the rest. A backslash keeps the
character behind it as it is, and joins lines. -/
def readLine (raw : Bool) : Text → List Glyph × Bool × Text
  | [] => ([], false, [])
  | '\n' :: rest => ([], true, rest)
  | c :: rest =>
    if c = '\\' && !raw then
      match rest with
      | [] => ([], false, [])
      | '\n' :: rest => readLine raw rest
      | d :: rest =>
        let (line, whole, after) := readLine raw rest
        (⟨d, true⟩ :: line, whole, after)
    else
      let (line, whole, after) := readLine raw rest
      (⟨c, false⟩ :: line, whole, after)

def separates (ifs : Text) (g : Glyph) : Bool := !g.literal && ifs.contains g.char

def isBlankIn (ifs : Text) (g : Glyph) : Bool := separates ifs g && Arithmetic.isSpace g.char

/-- The line cut up for the names; the last one gets all that is left. -/
def assign (ifs : Text) : List Text → List Glyph → List (Text × Text)
  | [], _ => []
  | [name], line =>
    let line := (line.reverse.dropWhile (isBlankIn ifs)).reverse
    [(name, line.map Glyph.char)]
  | name :: names, line =>
    let value := line.takeWhile fun g ↦ !separates ifs g
    let rest := (line.drop value.length).dropWhile (isBlankIn ifs)
    let rest := match rest with
      | g :: more =>
        if separates ifs g && !isBlankIn ifs g then more.dropWhile (isBlankIn ifs) else rest
      | [] => []
    (name, value.map Glyph.char) :: assign ifs names rest

def blanks : Text := [' ', '\t', '\n']

def read (arguments : List Text) : Run Unit := do
  let raw := arguments.head? = some ['-', 'r']
  let names := if raw then arguments.tail else arguments
  if names.isEmpty then
    complain (textOfString "read: arg count")
    setStatus 2
  else
    let ifs := (← value? (textOfString "IFS")).getD blanks
    let (line, whole, rest) := readLine raw (← get).input
    modify fun s ↦ { s with input := rest }
    for (name, value) in assign ifs names (line.dropWhile (isBlankIn ifs)) do
      setVariable name value
    succeedIf whole

/-- Sends a signal to the script itself. -/
def deliver (signal : Nat) : Run Unit := do
  match (← get).traps.lookup signal with
  | some _ =>
    if signal = 9 then throw (.killed signal)
    modify fun s ↦ { s with pending := s.pending ++ [signal] }
  | none => unless harmless.contains signal do throw (.killed signal)

def kill (arguments : List Text) : Run Unit := do
  let (signal, targets) := match arguments with
    | ['-', 's'] :: name :: rest => (signal? name, rest)
    | ('-' :: name) :: rest => (signal? name, rest)
    | rest => (some 15, rest)
  match signal with
  | none =>
    complain (textOfString "kill: Illegal option " ++ (arguments.headD []).take 2)
    setStatus 2
  | some signal =>
    setStatus 0
    for target in targets do
      let s ← get
      if target = (toString s.identity).toList then deliver signal
      else if s.background = 0 then
        complain (textOfString "kill: No such process")
        setStatus 1

def withoutDashes (words : List Text) : List Text :=
  if words.head? = some ['-', '-'] then words.tail else words

def setOptions (arguments : List Text) : Run Unit := do
  match arguments with
  | ['-', '-'] :: rest => modify fun s ↦ { s with arguments := rest, status := 0 }
  | ('-' :: letters) :: rest =>
    modify fun s ↦ { s with
      options := s.options ++ letters
      arguments := if rest.isEmpty then s.arguments else withoutDashes rest
      status := 0 }
  | ('+' :: letters) :: _ => modify fun s ↦
    { s with options := s.options.filter fun c ↦ !letters.contains c, status := 0 }
  | [] => setStatus 0
  | rest => modify fun s ↦ { s with arguments := rest, status := 0 }

/-- Sets the variables that are given with a value, and does something to each. -/
def forEachName (perform : Text → Run Unit) (arguments : List Text) : Run Unit := do
  for a in arguments do
    let name := a.takeWhile (· ≠ '=')
    if a.contains '=' then setVariable name (a.drop (name.length + 1))
    perform name
  setStatus 0

def locationText (l : Location) : Text := textOfBytes (FileSystem.joinNames true l)

def cd (arguments : List Text) : Run Unit := do
  let home := (← value? (textOfString "HOME")).getD []
  let before := (← value? (textOfString "OLDPWD")).getD []
  let target := arguments.headD home
  let target := if target = ['-'] then before else target
  let s ← get
  match s.files.directoryAt? (bytesOfText target) with
  | some l =>
    set { s with files := { s.files with workingDirectory := l }, status := 0 }
    setVariable (textOfString "OLDPWD") (locationText s.files.workingDirectory)
    setVariable (textOfString "PWD") (locationText l)
    if arguments.head? = some ['-'] then say (target ++ ['\n'])
  | none =>
    complain (textOfString "cd: can't cd to " ++ target)
    setStatus 2

def pwd (_ : List Text) : Run Unit := do
  say (locationText (← get).files.workingDirectory ++ ['\n'])
  setStatus 0

def trap (arguments : List Text) : Run Unit := do
  match arguments with
  | action :: names =>
    for name in names do
      match signal? name with
      | some n => modify fun s ↦
          let others := s.traps.filter (·.1 ≠ n)
          { s with traps := if action = ['-'] then others else (n, action) :: others }
      | none => complain (textOfString "trap: bad trap")
    setStatus 0
  | [] => setStatus 0

def exit (arguments : List Text) : Run Unit := do
  let code ← count "exit" (← get).status arguments
  throw (.exit (code % 256))

def returning (arguments : List Text) : Run Unit := do
  let code ← count "return" (← get).status arguments
  throw (.leaveFunction (code % 256))

def waitForAll (arguments : List Text) : Run Unit := do
  let s ← get
  wait (s.lingering - s.clock)
  setStatus (if arguments.isEmpty then 0 else s.backgroundStatus)

/-- Leaves the round of a loop that is so many levels up, or the outermost one. -/
def jump (stop : Nat → Stop) (levels : Nat) : Run Unit := do
  setStatus 0
  let loops := (← get).loops
  if 0 < loops then throw (stop (min levels loops))

def ownVariable (name : Text) : Run Unit := modify fun s ↦
  { s with locals := (name, s.bindings.lookup name) :: s.locals }

def own (arguments : List Text) : Run Unit := do
  for a in arguments do ownVariable (a.takeWhile (· ≠ '='))
  forEachName (fun _ ↦ pure ()) arguments

/-- Commands whose assignments outlast them. -/
def special : List String :=
  [":", "break", "continue", "eval", "exec", "exit", "export", "readonly", "return", "set",
    "shift", "trap", "unset"]

def find? (name : String) : Option (List Text → Run Unit) :=
  match name with
  | ":" | "true" => some fun _ ↦ setStatus 0
  | "false" => some fun _ ↦ setStatus 1
  | "echo" => some echo
  | "printf" => some printf
  | "test" => some (test "test")
  | "[" => some bracket
  | "shift" => some shift
  | "umask" => some umask
  | "read" => some read
  | "kill" => some kill
  | "set" => some setOptions
  | "export" => some (forEachName exportVariable)
  | "readonly" => some (forEachName fun _ ↦ pure ())
  | "local" => some own
  | "unset" => some (forEachName unsetVariable)
  | "cd" => some cd
  | "pwd" => some pwd
  | "trap" => some trap
  | "exit" => some exit
  | "return" => some returning
  | "break" => some fun a ↦ do jump .leaveLoop (← count "break" 1 a)
  | "continue" => some fun a ↦ do jump .nextRound (← count "continue" 1 a)
  | "wait" => some waitForAll
  | _ => none

end ReleaseTrain.Shell.Builtin
