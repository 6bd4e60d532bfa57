import ReleaseTrain.Json.Failure
import ReleaseTrain.Summary.Size
import ReleaseTrain.Text.Utf8

/-!
The words of JSON: blanks, names, strings and numbers, read byte by byte with an eye on the place
where a problem is noticed.
-/

namespace ReleaseTrain.Json

open Text (Bytes)

structure Cursor where
  rest : Bytes
  index : Nat

/-- A problem and the number of bytes before its place, if that is known already. -/
structure Raised where
  problem : Problem
  index : Option Nat

abbrev Reader := EStateM Raised Cursor

namespace Reader

variable {α : Type}

def peek : Reader (Option UInt8) := do return (← get).rest.head?

def skip : Reader Unit := modify fun c ↦
  match c.rest with
  | [] => c
  | _ :: rest => ⟨rest, c.index + 1⟩

def next : Reader (Option UInt8) := do
  let b ← peek
  skip
  return b

/-- A problem noticed behind the last byte read. -/
def fail (problem : Problem) : Reader α := do throw ⟨problem, some (← get).index⟩

def failAhead (problem : Problem) : Reader α := do
  let c ← get
  throw ⟨problem, some (if c.rest.isEmpty then c.index else c.index + 1)⟩

/-- A problem of what was read, whose place is yet to be settled. -/
def refuse (problem : Problem) : Reader α := throw ⟨problem, none⟩

/-- Settles the place of a problem that has none. -/
def placed (r : Reader α) : Reader α := fun c ↦
  match r c with
  | .error ⟨problem, none⟩ c => .error ⟨problem, some c.index⟩ c
  | result => result

/-- Reads one part and then the end of it. The end is looked for even if the part failed; then the
failure of the part counts. -/
def enclosed (part : Reader α) (ending : Reader Unit) : Reader α := fun c ↦
  match part c with
  | .ok a c =>
    match ending c with
    | .ok () c => .ok a c
    | .error e c => .error e c
  | .error e c =>
    match ending c with
    | .ok () c => .error e c
    | .error _ c => .error e c

def isSpace (b : UInt8) : Bool := b == 0x20 || b == 0x0A || b == 0x09 || b == 0x0D

/-- Goes past blanks and looks at the byte behind them. -/
def peekPastSpace : Reader (Option UInt8) := do
  modify fun c ↦
    let rest := c.rest.dropWhile isSpace
    ⟨rest, c.index + (c.rest.length - rest.length)⟩
  peek

def byte (c : Char) : UInt8 := c.toNat.toUInt8

def isDigit (b : UInt8) : Bool := byte '0' ≤ b && b ≤ byte '9'

/-- The rest of one of the three names. -/
def ident : List UInt8 → Reader Unit
  | [] => return
  | b :: bs => do
    match ← next with
    | none => fail .eofWhileParsingValue
    | some c => if c = b then ident bs else fail .expectedSomeIdent

def nullRest : Reader Unit := ident [117, 108, 108]

def trueRest : Reader Unit := ident [114, 117, 101]

def falseRest : Reader Unit := ident [97, 108, 115, 101]

def hexValue? (b : UInt8) : Option Nat :=
  if isDigit b then some (b.toNat - 48)
  else if 97 ≤ b ∧ b ≤ 102 then some (b.toNat - 87)
  else if 65 ≤ b ∧ b ≤ 70 then some (b.toNat - 55)
  else none

def hexEscape : Reader Nat := do
  let c ← get
  match c.rest with
  | p :: q :: r :: s :: rest =>
    set (Cursor.mk rest (c.index + 4))
    match hexValue? p, hexValue? q, hexValue? r, hexValue? s with
    | some p, some q, some r, some s => return 4096 * p + 256 * q + 16 * r + s
    | _, _, _, _ => fail .invalidEscape
  | rest =>
    set (Cursor.mk [] (c.index + rest.length))
    fail .eofWhileParsingString

def simpleEscape? (b : UInt8) : Option Char :=
  if b = byte '"' then some '"'
  else if b = byte '\\' then some '\\'
  else if b = byte '/' then some '/'
  else if b = byte 'b' then some '\x08'
  else if b = byte 'f' then some '\x0c'
  else if b = byte 'n' then some '\n'
  else if b = byte 'r' then some '\r'
  else if b = byte 't' then some '\t'
  else none

/-- A byte that has to follow a leading surrogate. -/
def expectAfterSurrogate (b : UInt8) : Reader Unit := do
  match ← peek with
  | none => fail .eofWhileParsingString
  | some c =>
    skip
    unless c = b do fail .unexpectedEndOfHexEscape

/-- The character of a numeric escape; surrogates have to come in pairs. -/
def unicodeEscape : Reader Char := do
  let n ← hexEscape
  if 0xDC00 ≤ n ∧ n ≤ 0xDFFF then fail .loneLeadingSurrogateInHexEscape
  if 0xD800 ≤ n ∧ n ≤ 0xDBFF then
    expectAfterSurrogate (byte '\\')
    expectAfterSurrogate (byte 'u')
    let m ← hexEscape
    if m < 0xDC00 ∨ 0xDFFF < m then fail .loneLeadingSurrogateInHexEscape
    return .ofNat (0x10000 + 1024 * (n - 0xD800) + (m - 0xDC00))
  return .ofNat n

def escape : Reader Char := do
  match ← next with
  | none => fail .eofWhileParsingString
  | some b =>
    match simpleEscape? b with
    | some c => return c
    | none => if b = byte 'u' then unicodeEscape else fail .invalidEscape

def stringBytes : Nat → Reader Bytes
  | 0 => fail .eofWhileParsingString
  | steps + 1 => do
    match ← next with
    | none => fail .eofWhileParsingString
    | some b =>
      if b = byte '"' then return []
      else if b = byte '\\' then
        let c ← escape
        return Text.encode c.toString ++ (← stringBytes steps)
      else if b < 0x20 then fail .controlCharacterWhileParsingString
      else return b :: (← stringBytes steps)

def string (steps : Nat) : Reader String := do return Text.lossy (← stringBytes steps)

/-- The rest of a string that is not looked at: its escapes need not make characters. -/
def skipString : Nat → Reader Unit
  | 0 => fail .eofWhileParsingString
  | steps + 1 => do
    match ← peek with
    | none => fail .eofWhileParsingString
    | some b =>
      if b < 0x20 then fail .controlCharacterWhileParsingString
      skip
      if b = byte '"' then return
      if b = byte '\\' then
        match ← next with
        | none => fail .eofWhileParsingString
        | some e =>
          if e = byte 'u' then let _ ← hexEscape
          else if (simpleEscape? e).isNone then fail .invalidEscape
      skipString steps

def digits : Reader Bytes := do
  let c ← get
  let ds := c.rest.takeWhile isDigit
  set (Cursor.mk (c.rest.drop ds.length) (c.index + ds.length))
  return ds

def maxSignificand : Nat := 0xFFFFFFFFFFFFFFFF

/-- Takes in digits as long as the number fits, and tells how many were left out. -/
def significand (n : Nat) : Bytes → Nat × Nat
  | [] => (n, 0)
  | d :: ds =>
    let m := 10 * n + (d.toNat - 48)
    if maxSignificand < m then (n, ds.length + 1) else significand m ds

/-- Whether a significand times a power of ten is too large for a double. The two factors are
rounded to doubles before they are multiplied. -/
def outOfRange (significand : Nat) (exponent : Int) : Bool :=
  significand ≠ 0 &&
    match exponent with
    | .ofNat e =>
      308 < e || Nat.pow 2 1024 - Nat.pow 2 970 ≤
        nearestDouble significand * nearestDouble (Nat.pow 10 e)
    | .negSucc _ => false

def checkRange (significand : Nat) (exponent : Int) : Reader Unit := do
  if outOfRange significand exponent then fail .numberOutOfRange

def maxExponent : Nat := 0x7FFFFFFF

def exponentValue (n : Nat) : Bytes → Option Nat
  | [] => some n
  | d :: ds =>
    let m := 10 * n + (d.toNat - 48)
    if maxExponent < m then none else exponentValue m ds

def exponentDigits : Reader (Bool × Bytes) := do
  skip
  let negative ← match ← peek with
    | some b =>
      if b = byte '+' then do skip; pure false
      else if b = byte '-' then do skip; pure true
      else pure false
    | none => pure false
  match ← next with
  | none => fail .eofWhileParsingValue
  | some d =>
    unless isDigit d do fail .invalidNumber
    return (negative, d :: (← digits))

def isExponentMark (b : Option UInt8) : Bool := b == some (byte 'e') || b == some (byte 'E')

/-- An exponent, if one comes next, and the check that the number is not too large. -/
def scale (significand : Nat) (start : Int) : Reader Unit := do
  if isExponentMark (← peek) then
    let (negative, ds) ← exponentDigits
    match exponentValue 0 ds with
    | some e => checkRange significand (if negative then start - e else start + e)
    | none => if significand ≠ 0 ∧ !negative then fail .numberOutOfRange
  else checkRange significand start

/-- What follows the whole part of a number. -/
def fraction (whole : Nat) (leftOut : Nat) : Reader Unit := do
  if (← peek) = some (byte '.') then
    skip
    let ds ← digits
    if ds.isEmpty then
      if (← peek).isNone then fail .eofWhileParsingValue else failAhead .invalidNumber
    let (n, more) := significand whole ds
    scale n ((leftOut : Int) - ((ds.length : Int) - more))
  else if leftOut ≠ 0 ∨ isExponentMark (← peek) then scale whole leftOut

def number : Reader Unit := do
  match ← next with
  | none => fail .eofWhileParsingValue
  | some b =>
    if b = byte '0' then
      if ((← peek).map isDigit).getD false then failAhead .invalidNumber
      fraction 0 0
    else if isDigit b then
      let (n, more) := significand 0 (b :: (← digits))
      fraction n more
    else fail .invalidNumber

/-- A number whose size does not matter. -/
def skipNumber : Reader Unit := do
  match ← next with
  | none => fail .invalidNumber
  | some b =>
    if b = byte '0' then
      if ((← peek).map isDigit).getD false then failAhead .invalidNumber
    else if isDigit b then let _ ← digits
    else fail .invalidNumber
    if (← peek) = some (byte '.') then
      skip
      if (← digits).isEmpty then failAhead .invalidNumber
    if isExponentMark (← peek) then
      skip
      match ← peek with
      | some b => if b = byte '+' ∨ b = byte '-' then skip
      | none => pure ()
      match ← next with
      | some d =>
        unless isDigit d do fail .invalidNumber
        let _ ← digits
      | none => fail .invalidNumber

end Reader

/-- Where a problem stands: the line, and the bytes of it up to there. -/
def Raised.toFailure (r : Raised) (text : Bytes) : Failure :=
  let before := text.take (r.index.getD 0)
  let line := before.reverse.takeWhile (· ≠ 0x0A)
  ⟨r.problem, 1 + before.count 0x0A, line.length⟩

end ReleaseTrain.Json
