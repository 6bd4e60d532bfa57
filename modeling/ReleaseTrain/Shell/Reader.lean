import ReleaseTrain.Shell.Syntax
import ReleaseTrain.Text.Split

/-!
Reading a script. A word ends at a blank or an operator outside quotes; a reserved word counts as
one only where a command may begin.
-/

namespace ReleaseTrain.Shell

/-- What is still to be read, and the number of the line. -/
structure Cursor where
  rest : Text
  line : Nat := 1

abbrev Reader := StateT Cursor Option

namespace Reader

def peek : Reader (Option Char) := do return (← get).rest.head?

def advance (n : Nat) : Reader Unit := modify fun c ↦
  ⟨c.rest.drop n, c.line + (c.rest.take n).count '\n'⟩

def accept (text : String) : Reader Bool := do
  if (Text.after? text.toList (← get).rest).isSome then
    advance text.length
    return true
  return false

def expect (text : String) : Reader Unit := do
  unless ← accept text do failure

def comes (text : String) : Reader Bool := do
  return (Text.after? text.toList (← get).rest).isSome

def ahead {α : Type} (r : Reader α) : Reader α := do
  let c ← get
  let a ← r
  set c
  return a

def within {α : Type} (text : Text) (r : Reader α) : Reader α := do
  let c ← get
  set (Cursor.mk text c.line)
  let a ← r
  unless (← get).rest.isEmpty do failure
  set c
  return a

def isBlankChar (c : Char) : Bool := c == ' ' || c == '\t'

def endsWord (c : Char) : Bool :=
  isBlankChar c || ['\n', ';', '&', '|', '<', '>', '(', ')'].contains c

def isNameStart (c : Char) : Bool := c.isAlpha || c == '_'

def isNameChar (c : Char) : Bool := c.isAlphanum || c == '_'

def isSpecial (c : Char) : Bool := c.isDigit || ['?', '$', '#', '*', '@', '!', '-'].contains c

def skipBlanks : Nat → Reader Unit
  | 0 => return
  | steps + 1 => do
    match (← get).rest with
    | '\\' :: '\n' :: _ => do advance 2; skipBlanks steps
    | '#' :: rest => advance (1 + (rest.takeWhile (· ≠ '\n')).length)
    | c :: _ => if isBlankChar c then do advance 1; skipBlanks steps else return
    | [] => return

def skipLines : Nat → Reader Unit
  | 0 => return
  | steps + 1 => do
    skipBlanks steps
    if ← accept "\n" then skipLines steps

/-- The text up to a closing character outside quotes and inner pairs, which is left out. -/
def enclosedText (opening closing : Char) : Nat → (depth : Nat) → Reader Text
  | 0, _ => failure
  | steps + 1, depth => do
    match (← get).rest with
    | [] => failure
    | '\\' :: c :: _ =>
      advance 2
      return '\\' :: c :: (← enclosedText opening closing steps depth)
    | c :: _ =>
      advance 1
      if c = closing then
        match depth with
        | 0 => return []
        | depth + 1 => return c :: (← enclosedText opening closing steps depth)
      else if c = opening then
        return c :: (← enclosedText opening closing steps (depth + 1))
      else return c :: (← enclosedText opening closing steps depth)

def backquotedText : Nat → Reader Text
  | 0 => failure
  | steps + 1 => do
    match (← get).rest with
    | [] => failure
    | '`' :: _ => do advance 1; return []
    | '\\' :: c :: _ =>
      advance 2
      let rest ← backquotedText steps
      return if c = '`' ∨ c = '\\' ∨ c = '$' then c :: rest else '\\' :: c :: rest
    | c :: _ => do advance 1; return c :: (← backquotedText steps)

/-- The operator of a parameter in braces, and whether an empty value counts as none. -/
def operator : Reader (Operator × Bool) := do
  if ← accept ":-" then return (.default, true)
  if ← accept ":=" then return (.assign, true)
  if ← accept ":+" then return (.alternative, true)
  if ← accept ":?" then return (.complain, true)
  if ← accept "-" then return (.default, false)
  if ← accept "=" then return (.assign, false)
  if ← accept "+" then return (.alternative, false)
  if ← accept "?" then return (.complain, false)
  if ← accept "%%" then return (.cutEnd true, false)
  if ← accept "%" then return (.cutEnd false, false)
  if ← accept "##" then return (.cutStart true, false)
  if ← accept "#" then return (.cutStart false, false)
  return (.plain, false)

def parameterName : Reader Text := do
  match (← get).rest with
  | c :: rest =>
    if isNameStart c then
      let name := c :: rest.takeWhile isNameChar
      advance name.length
      return name
    else if c.isDigit then
      let name := c :: rest.takeWhile Char.isDigit
      advance name.length
      return name
    else if isSpecial c then do advance 1; return [c]
    else failure
  | [] => failure

/-- The word as it was written, if nothing in it is quoted or expanded. -/
def bare? : Word → Option Text
  | [.plain text] => some text
  | _ => none

def assignment? : Word → Option (Text × Word)
  | .plain text :: parts =>
    let name := text.takeWhile isNameChar
    match name, text.drop name.length with
    | c :: _, '=' :: value =>
      if isNameStart c then
        some (name, if value.isEmpty then parts else .plain value :: parts)
      else none
    | _, _ => none
  | _ => none

/-- A tilde in front, by itself or before a separator, stands for the home directory. -/
def atHome : Word → Word
  | .plain ('~' :: rest) :: parts =>
    if rest.isEmpty || rest.head? = some '/' then
      .parameter ['H', 'O', 'M', 'E'] .plain false [] true ::
        ((if rest.isEmpty then [] else [.plain rest]) ++ parts)
    else .plain ('~' :: rest) :: parts
  | parts => parts

/-- Whether the parts of a quoted word are just all arguments, of which there may be none. -/
def isAllArguments : Word → Bool
  | [.parameter ['@'] .plain _ _ _] => true
  | _ => false

mutual

/-- The parts of a word. Inside braces nothing ends it but the end of the text. -/
def parts : Nat → (inBraces : Bool) → Reader Word
  | 0, _ => failure
  | steps + 1, inBraces => do
    match (← get).rest with
    | [] => return []
    | '\\' :: '\n' :: _ => do advance 2; parts steps inBraces
    | '\\' :: c :: _ => do advance 2; return .quoted [c] :: (← parts steps inBraces)
    | '\x27' :: rest =>
      let text := rest.takeWhile (· ≠ '\x27')
      advance (text.length + 1)
      expect "'"
      return .quoted text :: (← parts steps inBraces)
    | '"' :: _ =>
      advance 1
      let inner ← quotedParts steps false
      expect "\""
      let rest ← parts steps inBraces
      return (if isAllArguments inner then inner else .quoted [] :: inner) ++ rest
    | '$' :: _ =>
      advance 1
      let part ← dollar steps false
      return part :: (← parts steps inBraces)
    | '`' :: _ =>
      advance 1
      let part ← backquoted steps false
      return part :: (← parts steps inBraces)
    | c :: rest =>
      if endsWord c && !inBraces then return []
      let text := c :: rest.takeWhile fun c ↦
        !(endsWord c || ['\\', '\x27', '"', '$', '`'].contains c)
      advance text.length
      return .plain text :: (← parts steps inBraces)

/-- The parts between double quotes, up to the closing one, or of a document, where such a quote
is a character like others. -/
def quotedParts : Nat → (inDocument : Bool) → Reader Word
  | 0, _ => failure
  | steps + 1, inDocument => do
    match (← get).rest with
    | [] => return []
    | '\\' :: c :: _ =>
      advance 2
      let rest ← quotedParts steps inDocument
      if c = '\n' then return rest
      let special := ['$', '`', '\\'].contains c || (c == '"' && !inDocument)
      return .quoted (if special then [c] else ['\\', c]) :: rest
    | '$' :: _ =>
      advance 1
      let part ← dollar steps true
      return part :: (← quotedParts steps inDocument)
    | '`' :: _ =>
      advance 1
      let part ← backquoted steps true
      return part :: (← quotedParts steps inDocument)
    | c :: rest =>
      if c = '"' && !inDocument then return []
      let text := c :: rest.takeWhile fun c ↦
        !(['\\', '$', '`'].contains c || (c == '"' && !inDocument))
      advance text.length
      return .quoted text :: (← quotedParts steps inDocument)

def dollar : Nat → (inQuotes : Bool) → Reader Part
  | 0, _ => failure
  | steps + 1, inQuotes => do
    if ← accept "((" then
      let text ← enclosedText '(' ')' steps 0
      expect ")"
      return .arithmetic (← within text (quotedParts steps true)) inQuotes
    if ← accept "(" then
      let body ← list steps
      skipBlanks steps
      expect ")"
      return .substitution body inQuotes
    if ← accept "\x7b" then
      if (← comes "#") && !(← comes "#\x7d") then
        advance 1
        let name ← parameterName
        expect "\x7d"
        return .parameter name .length false [] inQuotes
      let name ← parameterName
      let (op, nullToo) ← operator
      let text ← enclosedText '{' '}' steps 0
      return .parameter name op nullToo (← within text (parts steps true)) inQuotes
    match ← peek with
    | some c =>
      if isNameStart c then
        return .parameter (← parameterName) .plain false [] inQuotes
      if isSpecial c then
        advance 1
        return .parameter [c] .plain false [] inQuotes
      return .quoted ['$']
    | none => return .quoted ['$']

def backquoted : Nat → (inQuotes : Bool) → Reader Part
  | 0, _ => failure
  | steps + 1, inQuotes => do
    let text ← backquotedText steps
    return .substitution (← within text (list steps)) inQuotes

def word : Nat → Reader (Option Word)
  | 0 => failure
  | steps + 1 => do
    skipBlanks steps
    match ← peek with
    | none => return none
    | some c => if endsWord c then return none else return some (atHome (← parts steps false))

def reserved : Nat → List String → Reader (Option String)
  | 0, _ => failure
  | steps + 1, names => do
    match ← ahead (word steps) with
    | some w => return names.find? fun n ↦ bare? w = some n.toList
    | none => return none

def keyword : Nat → String → Reader Unit
  | 0, _ => failure
  | steps + 1, name => do
    skipLines steps
    match ← word steps with
    | some w => unless bare? w = some name.toList do failure
    | none => failure

/-- The document that begins on the next line and goes up to a line with nothing but the given word.
Where that is quoted, the document is taken as it is. -/
def document : Nat → (withoutTabs : Bool) → Word → Reader Word
  | 0, _, _ => failure
  | steps + 1, withoutTabs, delimiter => do
    let c ← get
    let line := c.rest.takeWhile (· ≠ '\n')
    let ending := delimiter.flatMap fun
      | .plain text | .quoted text => text
      | _ => []
    let lines := (Text.pieces '\n' (c.rest.drop (line.length + 1))).map fun l ↦
      if withoutTabs then l.dropWhile (· = '\t') else l
    let body := lines.takeWhile (· ≠ ending)
    let text := body.flatMap (· ++ ['\n'])
    let after := List.intercalate ['\n'] (lines.drop (body.length + 1))
    set { c with rest := line ++ '\n' :: after }
    if (bare? delimiter).isSome then within text (quotedParts steps true)
    else return [.quoted text]

def redirection : Nat → Reader (Option Redirection)
  | 0 => failure
  | steps + 1 => do
    skipBlanks steps
    let digits := (← get).rest.takeWhile Char.isDigit
    match (← get).rest.drop digits.length with
    | c :: _ =>
      unless c = '<' ∨ c = '>' do return none
      advance digits.length
      let number := digits.foldl (fun n d ↦ 10 * n + (d.toNat - 48)) 0
      let (standard, direction) ←
        if ← accept ">>" then pure (1, Direction.append)
        else if ← accept ">&" then pure (1, .duplicate)
        else if ← accept ">|" then pure (1, .output)
        else if ← accept ">" then pure (1, .output)
        else if ← accept "<&" then pure (0, .duplicate)
        else if ← accept "<<" then pure (0, .document)
        else do expect "<"; pure (0, .input)
      let descriptor := if digits.isEmpty then standard else number
      let withoutTabs ← if direction = .document then accept "-" else pure false
      match ← word steps with
      | some target =>
        if direction = .document then
          return some (.mk descriptor direction (← document steps withoutTabs target))
        return some (.mk descriptor direction target)
      | none => failure
    | [] => return none

def redirections : Nat → Reader (List Redirection)
  | 0 => failure
  | steps + 1 => do
    match ← redirection steps with
    | some r => return r :: (← redirections steps)
    | none => return []

/-- The rest of a simple command. Assignments stand before the first other word. -/
def simple : Nat → (line : Nat) → List (Text × Word) → List Word → List Redirection → Reader Command
  | 0, _, _, _, _ => failure
  | steps + 1, line, assignments, words, rs => do
    match ← redirection steps with
    | some r => simple steps line assignments words (rs ++ [r])
    | none =>
      match ← word steps with
      | none =>
        if assignments.isEmpty && words.isEmpty && rs.isEmpty then failure
        return .simple line assignments words rs
      | some w =>
        match words, assignment? w with
        | [], some a => simple steps line (assignments ++ [a]) words rs
        | [], none =>
          skipBlanks steps
          match bare? w, ← accept "(" with
          | some name, true =>
            skipBlanks steps
            expect ")"
            skipLines steps
            return .definition name (← command steps)
          | none, true => failure
          | _, false => simple steps line assignments [w] rs
        | _, _ => simple steps line assignments (words ++ [w]) rs

def branches : Nat → Reader Command
  | 0 => failure
  | steps + 1 => do
    let condition ← list steps
    keyword steps "then"
    let yes ← list steps
    skipLines steps
    match ← reserved steps ["elif", "else", "fi"] with
    | some "elif" => do keyword steps "elif"; return .branch condition yes (← branches steps)
    | some "else" =>
      keyword steps "else"
      let no ← list steps
      keyword steps "fi"
      return .branch condition yes no
    | _ => do keyword steps "fi"; return .branch condition yes .nothing

def patterns : Nat → Reader (List Word)
  | 0 => failure
  | steps + 1 => do
    match ← word steps with
    | none => failure
    | some w =>
      skipBlanks steps
      if ← accept "|" then return w :: (← patterns steps)
      return [w]

def cases : Nat → Reader (List (List Word × Command))
  | 0 => failure
  | steps + 1 => do
    skipLines steps
    match ← reserved steps ["esac"] with
    | some _ => do keyword steps "esac"; return []
    | none =>
      let _ ← accept "("
      let ps ← patterns steps
      skipBlanks steps
      expect ")"
      let body ← list steps
      skipLines steps
      if ← accept ";;" then return (ps, body) :: (← cases steps)
      keyword steps "esac"
      return [(ps, body)]

def words : Nat → Reader (List Word)
  | 0 => failure
  | steps + 1 => do
    match ← word steps with
    | some w => return w :: (← words steps)
    | none => return []

def command : Nat → Reader Command
  | 0 => failure
  | steps + 1 => do
    skipBlanks steps
    if ← accept "(" then
      let body ← list steps
      skipBlanks steps
      expect ")"
      return .subshell body (← redirections steps)
    match ← reserved steps ["\x7b", "if", "while", "until", "for", "case"] with
    | none => simple steps (← get).line [] [] []
    | some name =>
      keyword steps name
      let body ← match name with
        | "if" => branches steps
        | "while" | "until" =>
          let condition ← list steps
          keyword steps "do"
          let body ← list steps
          keyword steps "done"
          pure (.loop (name = "until") condition body)
        | "for" =>
          let some w ← word steps | failure
          let some variable_ := bare? w | failure
          skipLines steps
          let ws ← match ← reserved steps ["in"] with
            | some _ => do keyword steps "in"; pure (some (← words steps))
            | none => pure none
          skipBlanks steps
          let _ ← accept ";"
          keyword steps "do"
          let body ← list steps
          keyword steps "done"
          pure (.each variable_ ws body)
        | "case" =>
          let some w ← word steps | failure
          keyword steps "in"
          pure (.choice w (← cases steps))
        | _ =>
          let body ← list steps
          keyword steps "\x7d"
          pure body
      match ← redirections steps with
      | [] => return body
      | rs => return .group body rs

def pipeline : Nat → Reader Command
  | 0 => failure
  | steps + 1 => do
    match ← reserved steps ["!"] with
    | some _ => do keyword steps "!"; return .negated (← pipeline steps)
    | none =>
      let first ← command steps
      skipBlanks steps
      if (← comes "|") && !(← comes "||") then
        advance 1
        skipLines steps
        return .pipe first (← pipeline steps)
      return first

/-- Pipelines joined by `&&` and `||`, which bind to the left. -/
def chain : Nat → Command → Reader Command
  | 0, _ => failure
  | steps + 1, first => do
    skipBlanks steps
    if ← accept "&&" then
      skipLines steps
      chain steps (.both first (← pipeline steps))
    else if ← accept "||" then
      skipLines steps
      chain steps (.either first (← pipeline steps))
    else return first

/-- Commands up to the end of the text, a closing parenthesis, the end of a case, or a reserved
word that only closes something. -/
def list : Nat → Reader Command
  | 0 => failure
  | steps + 1 => do
    skipLines steps
    if (← get).rest.isEmpty || (← comes ")") || (← comes ";;") then return .nothing
    match ← reserved steps ["then", "elif", "else", "fi", "do", "done", "esac", "\x7d"] with
    | some _ => return .nothing
    | none =>
      let first ← chain steps (← pipeline steps)
      skipBlanks steps
      if ← comes ";;" then return first
      if (← accept ";") || (← accept "\n") then return .sequence first (← list steps)
      if ← accept "&" then return .sequence (.background first) (← list steps)
      return first

end

end Reader

def parse? (text : Text) : Option Command := do
  let (command, c) ← (Reader.list (12 * text.length + 64)).run ⟨text, 1⟩
  if c.rest.isEmpty then some command else none

end ReleaseTrain.Shell
