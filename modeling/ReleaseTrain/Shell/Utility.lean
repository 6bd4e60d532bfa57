import ReleaseTrain.FileSystem.Place
import ReleaseTrain.Shell.Builtin

/-!
The tools of a machine that start no other one. They complain under their own name.
-/

namespace ReleaseTrain.Shell.Utility

open Run

def complain (tool : String) (message : Text) : Run Unit := do
  writeTo 2 (textOfString (tool ++ ": ") ++ message ++ ['\n'])
  setStatus 1

def words (failure : FileSystem.Failure) : Text :=
  textOfString ((failure.system?.map (·.1)).getD "Input/output error")

def quoted (path : Text) : Text := ['\x27'] ++ path ++ ['\x27']

def orComplain (tool activity : String) (path : Text) :
    Except FileSystem.Failure Unit → Run Unit
  | .ok () => pure ()
  | .error failure =>
    complain tool (textOfString activity ++ quoted path ++ [':', ' '] ++ words failure)

def options : List Text → Text × List Text
  | ['-', '-'] :: rest => ([], rest)
  | ('-' :: c :: cs) :: rest =>
    let (letters, others) := options rest
    (c :: cs ++ letters, others)
  | rest => ([], rest)

def takeInput : Run Text := modifyGet fun s ↦ (s.input, { s with input := [] })

def contents (tool : String) (paths : List Text) : Run Text := do
  if paths.isEmpty then takeInput
  else
    let texts ← paths.mapM fun path ↦ do
      if path = ['-'] then takeInput
      else match ← onFiles (FileSystem.read (bytesOfText path)) with
        | .ok bytes => return textOfBytes bytes
        | .error failure =>
          complain tool (path ++ [':', ' '] ++ words failure)
          return []
    return texts.flatten

def cat (arguments : List Text) : Run Unit := do
  setStatus 0
  say (← contents "cat" (options arguments).2)

/-- The echo that takes a backslash as it is unless told otherwise. -/
def echo : List Text → (newline escapes : Bool) → Run Unit
  | ('-' :: c :: cs) :: rest, newline, escapes => do
    if (c :: cs).all fun c ↦ c == 'n' || c == 'e' || c == 'E' then
      echo rest (newline && !(c :: cs).contains 'n')
        (match (c :: cs).reverse.find? (· ≠ 'n') with
          | some c => c == 'e'
          | none => escapes)
    else finish (('-' :: c :: cs) :: rest) newline escapes
  | rest, newline, escapes => finish rest newline escapes
where
  finish (rest : List Text) (newline escapes : Bool) : Run Unit := do
    let text := Builtin.joined rest
    let (text, ended) := if escapes then Format.interpretAll text else (text, false)
    say (if newline && !ended then text ++ ['\n'] else text)
    setStatus 0

def makeDirectory (arguments : List Text) : Run Unit := do
  let (letters, paths) := options arguments
  setStatus 0
  for path in paths do
    orComplain "mkdir" "cannot create directory " path (← onFiles
      ((if letters.contains 'p' then FileSystem.makeDirectories else FileSystem.makeDirectory)
        (bytesOfText path)))

def removeDirectory (arguments : List Text) : Run Unit := do
  setStatus 0
  for path in arguments do
    let fs := (← get).files
    match fs.directoryAt? (bytesOfText path) with
    | some l =>
      if (fs.below l).isEmpty then
        orComplain "rmdir" "failed to remove " path
          (← onFiles (FileSystem.removeDirectory (bytesOfText path)))
      else orComplain "rmdir" "failed to remove " path (.error .notEmpty)
    | none => orComplain "rmdir" "failed to remove " path (.error .notFound)

def remove (arguments : List Text) : Run Unit := do
  let (letters, paths) := options arguments
  let whole := letters.contains 'r' || letters.contains 'R'
  setStatus 0
  for path in paths do
    let action := if whole && (← get).files.isDirectory (bytesOfText path) then
        FileSystem.removeDirectory (bytesOfText path)
      else FileSystem.removeFile (bytesOfText path)
    orComplain "rm" "cannot remove " path
      (← onFiles (if letters.contains 'f' then FileSystem.ifAny action else action))

def touch (arguments : List Text) : Run Unit := do
  setStatus 0
  for path in arguments do
    match ← openFile path true with
    | .ok _ | .error .isDirectory => pure ()
    | .error failure => orComplain "touch" "cannot touch " path (.error failure)

/-- Where a copy of a path goes: into a directory, or in the place of the target. -/
def destination (fs : FileSystem) (source target : Text) : Text :=
  if fs.isDirectory (bytesOfText target) then
    let last := (FileSystem.lastStep? (bytesOfText source)).getD []
    target ++ ['/'] ++ textOfBytes last
  else target

def copyTo (node : Node) (below : List (Location × Node)) (depth : Nat) (target : Text) :
    FileSystem.Action Unit := do
  match ← FileSystem.find (bytesOfText target) true with
  | .found l old =>
    match old, node with
    | .file _ mode, .file content _ => modify (·.set l (.file content mode))
    | _, _ => throw .alreadyExists
  | .free l name =>
    let place := l ++ [name]
    modify fun fs ↦ (below.reverse.foldl (fun fs e ↦ fs.set (place ++ e.1.drop depth) e.2)
      (fs.set place node))

def copyOne (whole : Bool) (source target : Text) : FileSystem.Action Unit := do
  let fs ← get
  match ← FileSystem.find (bytesOfText source) true with
  | .free _ _ => throw .notFound
  | .found l node =>
    if node = .directory && !whole then throw .isDirectory
    copyTo node (if node = .directory then fs.below l else []) l.length
      (destination fs source target)

def moveOne (source target : Text) : FileSystem.Action Unit := do
  let fs ← get
  match ← FileSystem.find (bytesOfText source) false with
  | .free _ _ => throw .notFound
  | .found l node =>
    modify (·.removeTree l)
    copyTo node (fs.below l) l.length (destination fs source target)

def towardsLast (tool activity : String) (perform : Text → Text → FileSystem.Action Unit)
    (paths : List Text) : Run Unit := do
  match paths.reverse with
  | target :: source :: sources =>
    setStatus 0
    for path in (source :: sources).reverse do
      orComplain tool activity path (← onFiles (perform path target))
  | _ => complain tool (textOfString "missing file operand")

def copy (arguments : List Text) : Run Unit := do
  let (letters, paths) := options arguments
  let whole := letters.any fun c ↦ c == 'r' || c == 'R' || c == 'a'
  towardsLast "cp" "cannot stat " (copyOne whole) paths

def link (arguments : List Text) : Run Unit := do
  let (letters, paths) := options arguments
  let symbolic := letters.contains 's'
  towardsLast "ln" "failed to create link "
    (fun source target ↦ do
      let fs ← get
      let target := destination fs source target
      if letters.contains 'f' then FileSystem.ifAny (FileSystem.removeFile (bytesOfText target))
      if symbolic then FileSystem.makeLink (bytesOfText target) (bytesOfText source)
      else copyOne false source target)
    paths

/-- The rights that a file gets: given as an octal number, or as the right to be run added to or
taken from those it has. -/
def newMode (wanted : Text) (old : Nat) : Option Nat :=
  match Arithmetic.digits? 8 wanted with
  | some mode => some mode
  | none =>
    let who := wanted.takeWhile fun c ↦ ['u', 'g', 'o', 'a'].contains c
    let all := who.isEmpty || who.contains 'a'
    let bits := (if all || who.contains 'u' then 0o100 else 0) |||
      (if all || who.contains 'g' then 0o010 else 0) |||
      (if all || who.contains 'o' then 0o001 else 0)
    match wanted.drop who.length with
    | ['+', 'x'] => some (old ||| bits)
    | ['-', 'x'] => some (old &&& (0o7777 ^^^ bits))
    | _ => none

def changeMode (arguments : List Text) : Run Unit := do
  match arguments with
  | wanted :: paths =>
    setStatus 0
    for path in paths do
      match (← get).files.nodeAt? (bytesOfText path) true with
      | some (.file _ old) =>
        match newMode wanted old with
        | some mode =>
          orComplain "chmod" "changing permissions of " path
            (← onFiles (FileSystem.setMode (bytesOfText path) mode))
        | none => complain "chmod" (textOfString "invalid mode: " ++ quoted wanted)
      | some _ => pure ()
      | none => orComplain "chmod" "cannot access " path (.error .notFound)
  | [] => complain "chmod" (textOfString "missing operand")

/-- Milliseconds of a number of seconds, minutes, hours or days with a point perhaps. -/
def duration? (text : Text) : Option Nat :=
  let number := text.takeWhile fun c ↦ c.isDigit || c == '.'
  let unit := match text.drop number.length with
    | [] | ['s'] => some 1000
    | ['m'] => some 60000
    | ['h'] => some 3600000
    | ['d'] => some 86400000
    | _ => none
  let whole := number.takeWhile Char.isDigit
  let fraction := number.drop (whole.length + 1)
  if number.isEmpty || !fraction.all Char.isDigit then none
  else do
    let unit ← unit
    let digits := whole ++ fraction
    let n ← Arithmetic.digits? 10 digits
    let part := Nat.pow 10 fraction.length
    return (n * unit + part - 1) / part

def sleep (arguments : List Text) : Run Unit := do
  match arguments.mapM duration? with
  | some [] => complain "sleep" (textOfString "missing operand" ++ hint)
  | some times =>
    wait (times.foldl (· + ·) 0)
    setStatus 0
  | none =>
    let wrong := (arguments.find? fun a ↦ (duration? a).isNone).getD []
    complain "sleep" (textOfString "invalid time interval " ++ quoted wrong ++ hint)
where
  hint : Text := textOfString "\nTry 'sleep --help' for more information."

def range (first step last : Int) : List Int :=
  if step = 0 then []
  else
    let count := if 0 < step then (last - first) / step else (first - last) / -step
    if count < 0 then [] else (List.range (count.toNat + 1)).map fun (i : Nat) ↦ first + step * i

def sequence (arguments : List Text) : Run Unit := do
  match arguments.mapM Arithmetic.integer? with
  | some [last] => write 1 1 last
  | some [first, last] => write first 1 last
  | some [first, step, last] => write first step last
  | _ => complain "seq" (textOfString "invalid operand")
where
  write (first step last : Int) : Run Unit := do
    say ((range first step last).flatMap fun n ↦ Arithmetic.textOf n ++ ['\n'])
    setStatus 0

def lines : Text → List Text
  | [] => []
  | c :: cs =>
    if c = '\n' then ['\n'] :: lines cs
    else match lines cs with
      | [] => [[c]]
      | l :: ls => (c :: l) :: ls

/-- A count behind an option, in the same word or the next one, and the other words. -/
def counted (letter : Char) : List Text → Option (Nat × List Text)
  | ['-', c] :: n :: rest => if c = letter then (Arithmetic.digits? 10 n).map (·, rest) else none
  | ('-' :: c :: n) :: rest => if c = letter then (Arithmetic.digits? 10 n).map (·, rest) else none
  | _ => none

def head (arguments : List Text) : Run Unit := do
  setStatus 0
  match counted 'c' arguments with
  | some (n, paths) => say ((← contents "head" paths).take n)
  | none =>
    let (n, paths) := (counted 'n' arguments).getD (10, arguments)
    say (((lines (← contents "head" paths)).take n).flatten)

def tail (arguments : List Text) : Run Unit := do
  setStatus 0
  let (n, paths) := (counted 'n' arguments).getD (10, arguments)
  let all := lines (← contents "tail" paths)
  say ((all.drop (all.length - n)).flatten)

def characters : Nat → Text → Text
  | 0, _ => []
  | _, [] => []
  | steps + 1, '\\' :: rest =>
    let (c, after) := Format.escape rest
    c :: characters steps after
  | steps + 1, c :: '-' :: d :: rest =>
    (List.range (d.toNat + 1 - c.toNat)).map (fun i ↦ Char.ofNat (c.toNat + i)) ++
      characters steps rest
  | steps + 1, c :: rest => c :: characters steps rest

def setOf (text : Text) : Text := characters text.length text

def translate (arguments : List Text) : Run Unit := do
  setStatus 0
  let text ← takeInput
  match arguments with
  | ['-', 'd'] :: set :: _ =>
    let set := setOf set
    say (text.filter fun c ↦ !set.contains c)
  | old :: new :: _ =>
    let old := setOf old
    let new := setOf new
    let last := new.getLast?.getD ' '
    say (text.map fun c ↦
      match old.idxOf? c with
      | some i => new.getD i last
      | none => c)
  | _ => complain "tr" (textOfString "missing operand")

def countWords (arguments : List Text) : Run Unit := do
  setStatus 0
  let (letters, paths) := options arguments
  let text ← contents "wc" paths
  let measures := [('l', text.count '\n'), ('w', (words text).length), ('c', text.length)]
  let shown := measures.filter fun m ↦ letters.contains m.1
  match shown with
  | [m] => say (Arithmetic.textOf m.2 ++ ['\n'])
  | _ =>
    let shown := if shown.isEmpty then measures else shown
    say ((shown.flatMap fun m ↦ Format.pad [] 8 (Arithmetic.textOf m.2)).drop 1 ++ ['\n'])
where
  words (text : Text) : List Text :=
    ((text.map fun c ↦ if Arithmetic.isSpace c then ' ' else c) |> Text.pieces ' ').filter
      (!·.isEmpty)

def list (arguments : List Text) : Run Unit := do
  setStatus 0
  let paths := (options arguments).2
  for path in (if paths.isEmpty then [['.']] else paths) do
    let fs := (← get).files
    match fs.directoryAt? (bytesOfText path) with
    | some l =>
      let names := ((fs.below l).filter (·.1.length = l.length + 1)).filterMap (·.1.getLast?)
      let names := (names.map textOfBytes).filter (·.head? ≠ some '.')
      say ((names.mergeSort fun a b ↦ !decide (b < a)).flatMap (· ++ ['\n']))
    | none =>
      if fs.isFile (bytesOfText path) then say (path ++ ['\n'])
      else
        orComplain "ls" "cannot access " path (.error .notFound)
        setStatus 2

def find? (name : String) : Option (List Text → Run Unit) :=
  match name with
  | "true" => some fun _ ↦ setStatus 0
  | "false" => some fun _ ↦ setStatus 1
  | "echo" => some fun a ↦ echo a true false
  | "printf" => some Builtin.printf
  | "test" => some (Builtin.test "test")
  | "[" => some Builtin.bracket
  | "pwd" => some Builtin.pwd
  | "cat" => some cat
  | "mkdir" => some makeDirectory
  | "rmdir" => some removeDirectory
  | "rm" => some remove
  | "touch" => some touch
  | "cp" => some copy
  | "mv" => some (towardsLast "mv" "cannot stat " moveOne)
  | "ln" => some link
  | "chmod" => some changeMode
  | "sleep" => some sleep
  | "seq" => some sequence
  | "head" => some head
  | "tail" => some tail
  | "tr" => some translate
  | "wc" => some countWords
  | "ls" => some list
  | _ => none

end ReleaseTrain.Shell.Utility
