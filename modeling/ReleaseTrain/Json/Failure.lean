/-!
Why a text is not the JSON document that is expected, and where that was noticed.
-/

namespace ReleaseTrain.Json

inductive Problem
  | eofWhileParsingList
  | eofWhileParsingObject
  | eofWhileParsingString
  | eofWhileParsingValue
  | expectedColon
  | expectedListCommaOrEnd
  | expectedObjectCommaOrEnd
  | expectedSomeIdent
  | expectedSomeValue
  | invalidEscape
  | invalidNumber
  | numberOutOfRange
  | invalidUnicodeCodePoint
  | controlCharacterWhileParsingString
  | keyMustBeAString
  | loneLeadingSurrogateInHexEscape
  | trailingComma
  | trailingCharacters
  | unexpectedEndOfHexEscape
  | recursionLimitExceeded
  | duplicateField (name : String)
  | invalidType (found expected : String)
  | invalidLength (length : Nat) (expected : String)
  deriving DecidableEq, Repr

def Problem.message : Problem → String
  | eofWhileParsingList => "EOF while parsing a list"
  | eofWhileParsingObject => "EOF while parsing an object"
  | eofWhileParsingString => "EOF while parsing a string"
  | eofWhileParsingValue => "EOF while parsing a value"
  | expectedColon => "expected `:`"
  | expectedListCommaOrEnd => "expected `,` or `]`"
  | expectedObjectCommaOrEnd => "expected `,` or `\x7d`"
  | expectedSomeIdent => "expected ident"
  | expectedSomeValue => "expected value"
  | invalidEscape => "invalid escape"
  | invalidNumber => "invalid number"
  | numberOutOfRange => "number out of range"
  | invalidUnicodeCodePoint => "invalid unicode code point"
  | controlCharacterWhileParsingString =>
    "control character (\\u0000-\\u001F) found while parsing a string"
  | keyMustBeAString => "key must be a string"
  | loneLeadingSurrogateInHexEscape => "lone leading surrogate in hex escape"
  | trailingComma => "trailing comma"
  | trailingCharacters => "trailing characters"
  | unexpectedEndOfHexEscape => "unexpected end of hex escape"
  | recursionLimitExceeded => "recursion limit exceeded"
  | duplicateField name => s!"duplicate field `{name}`"
  | invalidType found expected => s!"invalid type: {found}, expected {expected}"
  | invalidLength length expected => s!"invalid length {length}, expected {expected}"

/-- Lines count from 1; the column is the number of bytes of the line read so far. -/
structure Failure where
  problem : Problem
  line : Nat
  column : Nat
  deriving DecidableEq, Repr

def Failure.message (f : Failure) : String :=
  s!"{f.problem.message} at line {f.line} column {f.column}"

end ReleaseTrain.Json
