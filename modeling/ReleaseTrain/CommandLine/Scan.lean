import ReleaseTrain.CommandLine.Option
import ReleaseTrain.Text.Split

/-!
Reading one level of a command line, word by word. A value given as a word of its own is taken in
only when the next option or the end of the level comes, and so is the complaint about it.
-/

namespace ReleaseTrain.CommandLine

abbrev Found := List (OptionName × Option String)

/-- What has been read of a level, and the option whose value may still come. -/
structure Scan where
  found : Found := []
  pending : Option (OptionName × Option String) := none
  deriving DecidableEq, Repr

namespace Scan

/-- Whether the next word, if it is no option, is the value of the option before it. -/
def awaiting? (s : Scan) : Option OptionName :=
  match s.pending with
  | some (name, none) => some name
  | _ => none

/-- Takes an option in. None may be given twice, and the path of a file may not be empty. -/
def record (s : Scan) (name : OptionName) (value : Option String) : Except UsageError Scan :=
  if (s.found.lookup name).isSome then .error .argumentConflict
  else if name = .config ∧ value = some "" then .error .invalidValue
  else .ok { s with found := s.found ++ [(name, value)] }

/-- Takes in the option whose value was given as a word of its own. -/
def settle (s : Scan) : Except UsageError Scan :=
  match s.pending with
  | none => .ok s
  | some (_, none) => .error .invalidValue
  | some (name, value) => { s with pending := none }.record name value

def give (s : Scan) (name : OptionName) : Except UsageError Scan := do
  let s ← s.settle
  match name.kind with
  | .value => return { s with pending := some (name, none) }
  | .flag => s.record name none
  | .page => throw (if name = .help then .displayHelp else .displayVersion)

def giveValue (s : Scan) (name : OptionName) (value : String) : Except UsageError Scan := do
  let s ← s.settle
  s.record name (some value)

def long (level : Level) (s : Scan) (body : List Char) : Except UsageError Scan :=
  let name := body.takeWhile (· ≠ '=')
  match level.ofLong? (.ofList name), body.drop name.length with
  | none, _ => .error .unknownArgument
  | some option, [] => s.give option
  | some option, _ :: value =>
    if option.kind = .value then s.giveValue option (.ofList value) else .error .tooManyValues

/-- A word of short options behind one dash. The first one that takes a value takes the rest of
the word, less one `=` in front of it. -/
def shorts (level : Level) (s : Scan) : List Char → Except UsageError Scan
  | [] => .ok s
  | c :: cs =>
    match level.ofShort? c with
    | none => .error .unknownArgument
    | some option =>
      if option.kind = .value then
        match cs with
        | [] => s.give option
        | '=' :: value => s.giveValue option (.ofList value)
        | value => s.giveValue option (.ofList value)
      else do shorts level (← s.give option) cs

end Scan

def isCommandWord (level : Level) (word : String) : Bool :=
  level = .root && ((Task.ofName? word).isSome || word = "help")

/-- Words that follow `help` name what help is wanted on. -/
def helpTopic : List String → UsageError
  | [] => .displayHelp
  | [word] => if isCommandWord .root word then .displayHelp else .invalidSubcommand
  | _ => .invalidSubcommand

def stray : Level → UsageError
  | .root => .invalidSubcommand
  | .task _ => .unknownArgument

def strayBehindDashes (level : Level) (word : String) : UsageError :=
  if isCommandWord level word then .unknownArgument else stray level

def scan (level : Level) (s : Scan) : List String →
    Except UsageError (Scan × Option (Task × List String))
  | [] => .ok (s, none)
  | word :: words =>
    match s.awaiting?, isCommandWord level word, word.toList with
    | none, true, _ =>
      match Task.ofName? word with
      | some task => .ok (s, some (task, words))
      | none => .error (helpTopic words)
    | _, _, ['-', '-'] =>
      match words with
      | [] => .ok (s, none)
      | word :: _ => .error (strayBehindDashes level word)
    | _, _, '-' :: '-' :: body => do scan level (← s.long level body) words
    | _, _, '-' :: c :: cs => do scan level (← s.shorts level (c :: cs)) words
    | some name, _, _ => scan level { s with pending := some (name, some word) } words
    | none, _, _ => .error (stray level)

end ReleaseTrain.CommandLine
