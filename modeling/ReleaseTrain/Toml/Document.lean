import ReleaseTrain.Toml.Build
import ReleaseTrain.Toml.Quoted
import ReleaseTrain.Toml.Scalar

/-!
Reading a TOML document: lines with headers and assignments, and the values in them.
-/

namespace ReleaseTrain.Toml

abbrev Reader := StateT (List Char) (Except Failure)

namespace Reader

def fail {α : Type} (expected : String) : Reader α := throw (.malformed expected)

def skip (p : Char → Bool) : Reader Unit := modify (·.dropWhile p)

def accept (text : String) : Reader Bool := do
  match Text.after? text.toList (← get) with
  | some rest => set rest; return true
  | none => return false

def expect (text : String) : Reader Unit := do
  unless ← accept text do fail text

def lineEnd : Reader Bool := do return (← accept "\n") || (← accept "\r\n")

/-- A comment holds no control character but the tab and reaches to the end of its line. -/
def comment : Reader Unit := do
  if ← accept "#" then skip isAllowed

def endLine : Reader Unit := do
  skip isSpace
  comment
  unless ← lineEnd do
    unless (← get).isEmpty do fail "the end of the line"

/-- Blanks, line ends and comments, as they may stand between the parts of a value. -/
def trivia : Nat → Reader Unit
  | 0 => pure ()
  | steps + 1 => do
    skip isSpace
    comment
    if ← lineEnd then trivia steps

def isBareKeyChar (c : Char) : Bool := c.isAlphanum || c == '_' || c == '-'

def quoted : Reader (Option String) := do
  match quoted? (← get) with
  | none => return none
  | some (.ok (text, rest)) => set rest; return some text
  | some (.error e) => throw e

def simpleKey : Reader String := do
  let cs ← get
  if (Text.after? ['"', '"', '"'] cs).isSome || (Text.after? ['\x27', '\x27', '\x27'] cs).isSome then
    fail "a key on one line"
  match ← quoted with
  | some key => return key
  | none =>
    let key := cs.takeWhile isBareKeyChar
    if key.isEmpty then fail "a key"
    set (cs.drop key.length)
    return .ofList key

def keys : Nat → Reader (List String × String)
  | 0 => fail "a key"
  | steps + 1 => do
    skip isSpace
    let key ← simpleKey
    skip isSpace
    if ← accept "." then
      let (path, last) ← keys steps
      return (key :: path, last)
    return ([], key)

/-- How deep arrays and tables in braces may nest, and how many keys may come before the last one
of a dotted key. -/
def maxDepth : Nat := 80

def dottedKey (steps : Nat) : Reader (List String × String) := do
  let (path, key) ← keys steps
  if maxDepth ≤ path.length then throw .tooDeep
  return (path, key)

def endsWord (c : Char) : Bool :=
  isSpace c || ['\n', '\r', ',', ']', '}', '#', '[', '{', '='].contains c

/-- Whether a character begins a word that may follow another one. -/
def beginsWord (c : Char) : Bool := !(endsWord c || ['.', '"', '\x27'].contains c)

/-- A word with the words behind it that only blanks keep apart, such as a date and a time. -/
def phrase : List Char → List Char
  | [] => []
  | c :: cs =>
    if !endsWord c || (isSpace c && (cs.dropWhile isSpace).head?.any beginsWord) then c :: phrase cs
    else []

def bare : Reader Value := do
  let cs ← get
  match scalar? (phrase cs) with
  | some kind =>
    set (cs.drop (phrase cs).length)
    return .scalar kind
  | none => fail "a value"

mutual

/-- A value; arrays and tables nest at most `depth` deep. -/
def value : (steps depth : Nat) → Reader Value
  | 0, _ => fail "a value"
  | steps + 1, depth => do
    if let some text ← quoted then return .string text
    if ← accept "[" then
      match depth with
      | 0 => throw .tooDeep
      | depth + 1 => return .array (← items steps depth)
    else if ← accept "\x7b" then
      match depth with
      | 0 => throw .tooDeep
      | depth + 1 => return .table (toTable (← pairs steps depth []))
    else bare

/-- The rest of an array. A comma may follow the last item. -/
def items : (steps depth : Nat) → Reader (List Value)
  | 0, _ => fail "]"
  | steps + 1, depth => do
    trivia steps
    if ← accept "]" then return []
    let item ← value steps depth
    trivia steps
    if ← accept "," then return item :: (← items steps depth)
    expect "]"
    return [item]

/-- The rest of a table in braces. Its lines may end anywhere but within a key. -/
def pairs : (steps depth : Nat) → Entries → Reader Entries
  | 0, _, _ => fail "the end of the table"
  | steps + 1, depth, entries => do
    trivia steps
    if ← accept "\x7d" then return entries
    let (path, key) ← dottedKey steps
    trivia steps
    expect "="
    trivia steps
    let v ← value steps depth
    let entries ← Entries.assign path key v .header entries
    trivia steps
    if ← accept "," then pairs steps depth entries
    else
      expect "\x7d"
      return entries

end

inductive Line
  | empty
  | table (path : List String) (key : String)
  | element (path : List String) (key : String)
  | assign (path : List String) (key : String) (value : Value)

def line (steps : Nat) : Reader Line := do
  skip isSpace
  if ← accept "[[" then
    let (path, key) ← dottedKey steps
    expect "]]"
    endLine
    return .element path key
  if ← accept "[" then
    let (path, key) ← dottedKey steps
    expect "]"
    endLine
    return .table path key
  match (← get).head? with
  | none | some '#' | some '\n' | some '\r' => endLine; return .empty
  | _ =>
    let (path, key) ← dottedKey steps
    expect "="
    skip isSpace
    let v ← value steps maxDepth
    endLine
    return .assign path key v

/-- The lines to the end. Assignments go to the table of the header before them, and before any
header to the document itself. -/
def lines : Nat → (current : List String) → Entries → Reader Entries
  | 0, _, entries => return entries
  | steps + 1, current, entries => do
    if (← get).isEmpty then return entries
    match ← line steps with
    | .empty => lines steps current entries
    | .table path key =>
      let entries ← Entries.changeAt false (Entries.openTable key) path .header entries
      lines steps (path ++ [key]) entries
    | .element path key =>
      let entries ← Entries.changeAt false (Entries.openElement key) path .header entries
      lines steps (path ++ [key]) entries
    | .assign path key v =>
      let entries ← Entries.changeAt false (Entries.assign path key v) current .header entries
      lines steps current entries

end Reader

/-- Reads a document. Every step of the reader goes at least one character on, so that the length
of the text bounds their number. -/
def parse (text : String) : Except Failure Table := do
  let cs := text.toList
  let cs := (Text.after? ['\ufeff'] cs).getD cs
  let (entries, _) ← (Reader.lines (cs.length + 2) [] []).run cs
  return toTable entries

end ReleaseTrain.Toml
