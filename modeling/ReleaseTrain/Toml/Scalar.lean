import ReleaseTrain.Toml.Value
import ReleaseTrain.Text.Split

/-!
Bare values: which words are booleans, integers, floats and dates. A number has to look like one only
as far as it takes to tell the kinds apart; what it amounts to is left to those who ask for a number.
-/

namespace ReleaseTrain.Toml

/-- Underscores cut a number into groups. No group is empty, and there are digits on both sides
where two groups meet; only a sign may be a group of its own. -/
def areGroups (digit : Char → Bool) (cs : List Char) : Bool :=
  match Text.pieces '_' cs with
  | [] | [_] => true
  | first :: more =>
    !first.isEmpty && more.all (·.head?.any digit) &&
      (first :: more).dropLast.all fun g ↦ g.length == 1 || g.getLast?.any digit

def withoutSign : List Char → List Char
  | '+' :: cs => cs
  | '-' :: cs => cs
  | cs => cs

def isHexDigit (c : Char) : Bool :=
  c.isDigit || ('a' ≤ c && c ≤ 'f') || ('A' ≤ c && c ≤ 'F')

/-- What follows the mark of a base. There may be no digit at all. -/
def isDigitRun (digit : Char → Bool) (cs : List Char) : Bool :=
  cs.all (fun c ↦ digit c || c == '_') && areGroups digit cs

/-- The characters that make a number one with a fraction or an exponent. -/
def isFloatMark (c : Char) : Bool := c == '.' || c == 'e' || c == 'E'

/-- A decimal number has no leading zero. Once it has been cut into groups, hexadecimal digits count
as digits where two groups meet, and nothing else is looked at. -/
def isDecimal (cs : List Char) : Bool :=
  let number := withoutSign cs
  let digits := number.takeWhile Char.isDigit
  match number.drop digits.length with
  | [] => !digits.isEmpty && (digits.length == 1 || digits.head? != some '0')
  | '_' :: rest =>
    digits.head? != some '0' && !rest.any (fun c ↦ isFloatMark c || c == ' ') &&
      areGroups isHexDigit cs
  | _ => false

def isInteger : List Char → Bool
  | '0' :: 'x' :: cs => isDigitRun isHexDigit cs
  | '0' :: 'o' :: cs => isDigitRun (fun c ↦ '0' ≤ c && c ≤ '7') cs
  | '0' :: 'b' :: cs => isDigitRun (fun c ↦ c == '0' || c == '1') cs
  | cs => isDecimal cs

/-- The digits and underscores at the beginning, which hold a digit. A leading zero is allowed only
where it is said to be, or if it is the only digit. -/
def afterDigits? (leadingZero : Bool) (cs : List Char) : Option (List Char) :=
  let run := cs.takeWhile fun c ↦ c.isDigit || c == '_'
  let count := run.countP Char.isDigit
  if count = 0 ∨ (1 < count ∧ run.head? = some '0' ∧ !leadingZero) then none
  else some (cs.drop run.length)

/-- A part of a float that may be missing, and what follows it. -/
def afterFraction? : List Char → Option (List Char)
  | '.' :: cs => afterDigits? true cs
  | cs => some cs

def afterExponent? : List Char → Option (List Char)
  | 'e' :: cs => afterDigits? true (withoutSign cs)
  | 'E' :: cs => afterDigits? true (withoutSign cs)
  | cs => some cs

/-- A fraction, an exponent, or both follow the whole part. -/
def isFloat (cs : List Char) : Bool :=
  let number := withoutSign cs
  if number = "inf".toList ∨ number = "nan".toList then true
  else
    number.any isFloatMark && areGroups Char.isDigit cs &&
      ((afterDigits? false number).bind afterFraction?).bind afterExponent? == some []

def fixedDigits? (width : Nat) (cs : List Char) : Option Nat :=
  if cs.length = width ∧ cs.all Char.isDigit then
    some (cs.foldl (fun n c ↦ 10 * n + (c.toNat - '0'.toNat)) 0)
  else none

def daysInMonth (year month : Nat) : Nat :=
  if month = 2 then
    if year % 4 = 0 ∧ (year % 100 ≠ 0 ∨ year % 400 = 0) then 29 else 28
  else if month = 4 ∨ month = 6 ∨ month = 9 ∨ month = 11 then 30
  else 31

def isDay (cs : List Char) : Bool :=
  match Text.pieces '-' cs with
  | [y, m, d] =>
    match fixedDigits? 4 y, fixedDigits? 2 m, fixedDigits? 2 d with
    | some y, some m, some d => 1 ≤ m && m ≤ 12 && 1 ≤ d && d ≤ daysInMonth y m
    | _, _, _ => false
  | _ => false

def isSecond (cs : List Char) : Bool :=
  let within (s : List Char) := (fixedDigits? 2 s).any (· ≤ 60)
  match Text.pieces '.' cs with
  | [s] => within s
  | [s, f] => within s && !f.isEmpty && f.all Char.isDigit
  | _ => false

/-- A time of day; the seconds may be left out. -/
def isTime (cs : List Char) : Bool :=
  let atMost (limit : Nat) (s : List Char) := (fixedDigits? 2 s).any (· ≤ limit)
  match Text.pieces ':' cs with
  | [h, m] => atMost 23 h && atMost 59 m
  | [h, m, s] => atMost 23 h && atMost 59 m && isSecond s
  | _ => false

def isOffset : List Char → Bool
  | ['Z'] | ['z'] => true
  | sign :: cs =>
    (sign == '+' || sign == '-') &&
      match Text.pieces ':' cs with
      | [h, m] => (fixedDigits? 2 h).any (· ≤ 23) && (fixedDigits? 2 m).any (· ≤ 59)
      | _ => false
  | [] => false

def isTimeWithOffset (cs : List Char) : Bool :=
  let time := cs.takeWhile fun c ↦ c.isDigit || c == ':' || c == '.'
  let offset := cs.drop time.length
  isTime time && (offset.isEmpty || isOffset offset)

/-- A date, a time, or a date with a time after a `T` or a blank. -/
def isDate (cs : List Char) : Bool :=
  isTime cs || isDay cs ||
    (isDay (cs.take 10) &&
      match cs.drop 10 with
      | c :: time => (c == 'T' || c == 't' || c == ' ') && isTimeWithOffset time
      | [] => false)

def scalar? (cs : List Char) : Option ScalarKind :=
  if cs = "true".toList ∨ cs = "false".toList then some .boolean
  else if isInteger cs then some .integer
  else if isFloat cs then some .float
  else if isDate cs then some .date
  else none

example : scalar? "1979-05-27 07:32:00Z".toList = some .date := by decide
example : scalar? "1__0".toList = none := by decide
example : scalar? "0x".toList = some .integer := by decide
example : scalar? "1_fox".toList = some .integer := by decide
example : scalar? "1_e5".toList = none := by decide

end ReleaseTrain.Toml
