import ReleaseTrain.Json.Reader

/-!
Whole JSON values: read in full, or gone past unread.
-/

namespace ReleaseTrain.Json

open Text (Bytes)

/-- Of a number only its text is kept. -/
inductive Value
  | null
  | boolean (b : Bool)
  | number (text : String)
  | string (text : String)
  | array (items : List Value)
  | object (members : List (String × Value))
  deriving Repr, Inhabited

inductive Bracket
  | list
  | object
  deriving DecidableEq, Repr

namespace Reader

variable {α : Type}

def endList : Reader Unit := do
  match ← peekPastSpace with
  | none => failAhead .eofWhileParsingList
  | some b =>
    if b = byte ']' then skip
    else if b = byte ',' then
      skip
      match ← peekPastSpace with
      | some b => failAhead (if b = byte ']' then .trailingComma else .trailingCharacters)
      | none => failAhead .trailingCharacters
    else failAhead .trailingCharacters

def endObject : Reader Unit := do
  match ← peekPastSpace with
  | none => failAhead .eofWhileParsingObject
  | some b =>
    if b = byte '}' then skip
    else if b = byte ',' then failAhead .trailingComma
    else failAhead .trailingCharacters

def moreItems (first : Bool) : Reader Bool := do
  match ← peekPastSpace with
  | none => failAhead .eofWhileParsingList
  | some b =>
    if b = byte ']' then return false
    else if first then return true
    else if b = byte ',' then
      skip
      match ← peekPastSpace with
      | none => failAhead .eofWhileParsingValue
      | some b => if b = byte ']' then failAhead .trailingComma else return true
    else failAhead .expectedListCommaOrEnd

def moreMembers (first : Bool) : Reader Bool := do
  match ← peekPastSpace with
  | none => failAhead .eofWhileParsingObject
  | some b =>
    if b = byte '}' then return false
    else if first then
      if b = byte '"' then return true else failAhead .keyMustBeAString
    else if b = byte ',' then
      skip
      match ← peekPastSpace with
      | none => failAhead .eofWhileParsingValue
      | some b =>
        if b = byte '"' then return true
        else if b = byte '}' then failAhead .trailingComma
        else failAhead .keyMustBeAString
    else failAhead .expectedObjectCommaOrEnd

def key (steps : Nat) : Reader String := do
  skip
  string steps

def colon : Reader Unit := do
  match ← peekPastSpace with
  | none => failAhead .eofWhileParsingObject
  | some b => if b = byte ':' then skip else failAhead .expectedColon

def beginValue : Reader UInt8 := do
  match ← peekPastSpace with
  | none => failAhead .eofWhileParsingValue
  | some b => return b

def textOf (r : Reader Unit) : Reader String := do
  let before := (← get).rest
  r
  return Text.lossy (before.take (before.length - (← get).rest.length))

def numberText : Reader String := textOf do
  if (← peek) = some (byte '-') then skip
  number

mutual

/-- A value. Lists and objects nest less deep than `depth`. -/
def value : (steps depth : Nat) → Reader Value
  | 0, _ => fail .eofWhileParsingValue
  | steps + 1, depth => placed do
    let b ← beginValue
    if b = byte 'n' then do skip; nullRest; return .null
    else if b = byte 't' then do skip; trueRest; return .boolean true
    else if b = byte 'f' then do skip; falseRest; return .boolean false
    else if b = byte '-' ∨ isDigit b then return .number (← numberText)
    else if b = byte '"' then do skip; return .string (← string steps)
    else if b = byte '[' then
      if depth ≤ 1 then failAhead .recursionLimitExceeded
      skip
      return .array (← enclosed (items steps (depth - 1) true) endList)
    else if b = byte '{' then
      if depth ≤ 1 then failAhead .recursionLimitExceeded
      skip
      return .object (← enclosed (members steps (depth - 1) true) endObject)
    else failAhead .expectedSomeValue

def items : (steps depth : Nat) → (first : Bool) → Reader (List Value)
  | 0, _, _ => fail .eofWhileParsingList
  | steps + 1, depth, first => do
    if ← moreItems first then
      let v ← value steps depth
      return v :: (← items steps depth false)
    else return []

def members : (steps depth : Nat) → (first : Bool) → Reader (List (String × Value))
  | 0, _, _ => fail .eofWhileParsingObject
  | steps + 1, depth, first => do
    if ← moreMembers first then
      let k ← key steps
      colon
      let v ← value steps depth
      return (k, v) :: (← members steps depth false)
    else return []

end

/-- Goes past the key and the colon of a member whose value is not looked at. -/
def skipKey (steps : Nat) : Reader Unit := do
  match ← peekPastSpace with
  | none => failAhead .eofWhileParsingObject
  | some b => if b = byte '"' then skip else failAhead .keyMustBeAString
  skipString steps
  colon

/-- Goes past the ends of the brackets that close here and the comma behind them. What is left are
the brackets still open. -/
def skipEnds : (open_ : List Bracket) → (comma : Bool) → Reader (List Bracket)
  | [], _ => return []
  | bracket :: outer, comma => do
    match ← peekPastSpace with
    | none =>
      failAhead (if bracket = .list then .eofWhileParsingList else .eofWhileParsingObject)
    | some b =>
      if comma && b == byte ',' then
        skip
        return bracket :: outer
      else if b = (if bracket = .list then byte ']' else byte '}') then
        skip
        skipEnds outer true
      else if comma then
        failAhead (if bracket = .list then .expectedListCommaOrEnd else .expectedObjectCommaOrEnd)
      else return bracket :: outer

/-- Goes past a value, however deep it is, given the brackets open around the place. -/
def skipWithin : Nat → List Bracket → Reader Unit
  | 0, _ => fail .eofWhileParsingValue
  | steps + 1, around => do
    let b ← beginValue
    let (around, comma) ←
      if b = byte 'n' then do skip; nullRest; pure (around, true)
      else if b = byte 't' then do skip; trueRest; pure (around, true)
      else if b = byte 'f' then do skip; falseRest; pure (around, true)
      else if b = byte '-' then do skip; skipNumber; pure (around, true)
      else if isDigit b then do skipNumber; pure (around, true)
      else if b = byte '"' then do skip; skipString steps; pure (around, true)
      else if b = byte '[' then do skip; pure (.list :: around, false)
      else if b = byte '{' then do skip; pure (.object :: around, false)
      else failAhead .expectedSomeValue
    match ← skipEnds around comma with
    | [] => return
    | .list :: around => skipWithin steps (.list :: around)
    | .object :: around =>
      skipKey steps
      skipWithin steps (.object :: around)

def skipValue (steps : Nat) : Reader Unit := skipWithin steps []

/-- The character as it stands between quotes in a complaint. A control character without a name
of its own is given by its number. -/
def quotedChar (c : Char) : String :=
  if c = '"' then "\\\""
  else if c = '\\' then "\\\\"
  else if c = '\n' then "\\n"
  else if c = '\r' then "\\r"
  else if c = '\t' then "\\t"
  else if c = '\x00' then "\\0"
  else if c.toNat < 0x20 ∨ (0x7F ≤ c.toNat ∧ c.toNat < 0xA0) then
    "\\u\x7b" ++ String.ofList (Nat.toDigits 16 c.toNat) ++ "\x7d"
  else c.toString

/-- Refuses the value that comes next for its type. A list or an object is not gone past. -/
def refuseType (steps : Nat) (expected : String) : Reader α := placed do
  match ← peek with
  | none => failAhead .expectedSomeValue
  | some b =>
    if b = byte 'n' then do skip; nullRest; refuse (.invalidType "null" expected)
    else if b = byte 't' then do
      skip
      trueRest
      refuse (.invalidType "boolean `true`" expected)
    else if b = byte 'f' then do
      skip
      falseRest
      refuse (.invalidType "boolean `false`" expected)
    else if b = byte '-' ∨ isDigit b then
      let text ← numberText
      let kind := if text.toList.any (fun c ↦ c == '.' || c == 'e' || c == 'E')
        then "floating point" else "integer"
      refuse (.invalidType s!"{kind} `{text}`" expected)
    else if b = byte '"' then
      skip
      let text ← string steps
      refuse (.invalidType ("string \"" ++ String.join (text.toList.map quotedChar) ++ "\"") expected)
    else if b = byte '[' then refuse (.invalidType "sequence" expected)
    else if b = byte '{' then refuse (.invalidType "map" expected)
    else failAhead .expectedSomeValue

/-- Nothing but blanks is left. -/
def ending : Reader Unit := do
  unless (← peekPastSpace).isNone do failAhead .trailingCharacters

end Reader

/-- How deep lists and objects may nest, the outermost included. -/
def maxDepth : Nat := 128

end ReleaseTrain.Json
