import ReleaseTrain.Shell.Arithmetic

/-!
Formats: text with directives that the arguments fill in, over and over while there are any left,
and the escapes behind a backslash.
-/

namespace ReleaseTrain.Shell.Format

def isOctal (c : Char) : Bool := '0' ≤ c && c ≤ '7'

/-- The character that an escape stands for, and the text behind it. A backslash in front of
anything else stands for itself. -/
def escape : Text → Char × Text
  | [] => ('\\', [])
  | c :: rest =>
    match c with
    | '\\' => ('\\', rest)
    | 'a' => ('\x07', rest)
    | 'b' => ('\x08', rest)
    | 'f' => ('\x0c', rest)
    | 'n' => ('\n', rest)
    | 'r' => ('\r', rest)
    | 't' => ('\t', rest)
    | 'v' => ('\x0b', rest)
    | _ =>
      let digits := ((c :: rest).take 3).takeWhile isOctal
      if digits.isEmpty then ('\\', c :: rest)
      else
        let n := digits.foldl (fun n d ↦ 8 * n + (d.toNat - 48)) 0
        (Char.ofNat (n % 256), (c :: rest).drop digits.length)

/-- A text with its escapes carried out, and whether one of them ended it. An octal number may have
one more zero in front here. -/
def interpret : Nat → Text → Text × Bool
  | 0, _ => ([], false)
  | _, [] => ([], false)
  | steps + 1, c :: rest =>
    if c ≠ '\\' then
      let (text, ended) := interpret steps rest
      (c :: text, ended)
    else if rest.head? = some 'c' then ([], true)
    else
      let rest := match rest with
        | '0' :: d :: more => if isOctal d then d :: more else rest
        | _ => rest
      let (c, rest) := escape rest
      let (text, ended) := interpret steps rest
      (c :: text, ended)

def interpretAll (text : Text) : Text × Bool := interpret (text.length + 1) text

/-- A number that a directive is given, or that it takes from the arguments. -/
inductive Measure
  | given (n : Nat)
  | taken
  deriving DecidableEq, Repr

structure Directive where
  flags : Text := []
  width : Measure := .given 0
  precision : Option Measure := none
  conversion : Char
  deriving DecidableEq, Repr

inductive Piece
  | char (c : Char)
  | directive (d : Directive)
  /-- What is no directive, and ends the format. -/
  | invalid (text : Text)
  deriving DecidableEq, Repr

def measure : Text → Measure × Text
  | '*' :: rest => (.taken, rest)
  | rest =>
    let digits := rest.takeWhile Char.isDigit
    (.given ((Arithmetic.digits? 10 digits).getD 0), rest.drop digits.length)

def conversions : Text := ['d', 'i', 'u', 'o', 'x', 'X', 'c', 's', 'b']

/-- The directive behind a percent sign. -/
def directive (text : Text) : Piece × Text :=
  let flags := text.takeWhile fun c ↦ ['#', '-', '+', ' ', '0'].contains c
  let (width, rest) := measure (text.drop flags.length)
  let (precision, rest) := match rest with
    | '.' :: rest =>
      let (p, rest) := measure rest
      (some p, rest)
    | _ => (none, rest)
  match rest with
  | c :: rest =>
    if conversions.contains c then (.directive ⟨flags, width, precision, c⟩, rest)
    else (.invalid (text.take (text.length - rest.length)), [])
  | [] => (.invalid text, [])

def pieces : Nat → Text → List Piece
  | 0, _ => []
  | _, [] => []
  | steps + 1, '%' :: '%' :: rest => .char '%' :: pieces steps rest
  | steps + 1, '%' :: rest =>
    let (piece, rest) := directive rest
    piece :: pieces steps rest
  | steps + 1, '\\' :: rest =>
    let (c, rest) := escape rest
    .char c :: pieces steps rest
  | steps + 1, c :: rest => .char c :: pieces steps rest

def pad (flags : Text) (width : Nat) (text : Text) : Text :=
  let blanks := List.replicate (width - text.length) ' '
  if flags.contains '-' then text ++ blanks else blanks ++ text

def digitsOf (conversion : Char) (n : Nat) : Text :=
  match conversion with
  | 'o' => Nat.toDigits 8 n
  | 'x' => Nat.toDigits 16 n
  | 'X' => (Nat.toDigits 16 n).map Char.toUpper
  | _ => Nat.toDigits 10 n

def isSigned (conversion : Char) : Bool := conversion == 'd' || conversion == 'i'

def sign (flags : Text) (conversion : Char) (n : Int) : Text :=
  if isSigned conversion then
    if n < 0 then ['-'] else if flags.contains '+' then ['+']
    else if flags.contains ' ' then [' '] else []
  else if flags.contains '#' && n ≠ 0 then
    match conversion with
    | 'x' => ['0', 'x']
    | 'X' => ['0', 'X']
    | 'o' => ['0']
    | _ => []
  else []

/-- A whole number: its sign, as many digits as are asked for, and blanks or zeros up to a width. -/
def number (flags : Text) (width : Nat) (precision : Option Nat) (conversion : Char) (n : Int) :
    Text :=
  let size := if isSigned conversion then n.natAbs else Arithmetic.bits n
  let digits := if precision = some 0 ∧ size = 0 then [] else digitsOf conversion size
  let front := sign flags conversion n
  let least := match precision with
    | some p => p
    | none => if flags.contains '0' && !flags.contains '-' then width - front.length else 0
  pad flags width (front ++ List.replicate (least - digits.length) '0' ++ digits)

/-- What an argument is worth as a number, and what there is to complain about it. A quote in front
asks for the number of a character. -/
def numberOf (argument : Text) : Int × Option String :=
  match argument with
  | [] => (0, none)
  | '"' :: c :: _ | '\x27' :: c :: _ => (c.toNat, none)
  | _ =>
    match Arithmetic.integer? argument with
    | some n => (n, none)
    | none =>
      let start := (List.range argument.length).reverse.findSome? fun n ↦
        Arithmetic.integer? (argument.take n)
      match start with
      | some n => (n, some "not completely converted")
      | none => (0, some "expected numeric value")

/-- What a format comes to. Complaints are in their order, each with the argument it is about. -/
structure Result where
  text : Text := []
  complaints : List (Text × String) := []
  /-- Whether there is nothing more to write. -/
  ended : Bool := false
  invalid : Option Text := none
  rest : List Text

def Result.write (r : Result) (text : Text) : Result := { r with text := r.text ++ text }

def Result.takeNumber (r : Result) : Int × Result :=
  match r.rest with
  | [] => (0, r)
  | a :: rest =>
    let (n, complaint) := numberOf a
    (n, { r with rest := rest, complaints := r.complaints ++ (complaint.map (a, ·)).toList })

def Result.takeMeasure (r : Result) : Measure → Nat × Result
  | .given n => (n, r)
  | .taken =>
    let (n, r) := r.takeNumber
    (n.toNat, r)

def Result.takeText (r : Result) : Text × Result := (r.rest.headD [], { r with rest := r.rest.tail })

def Result.fill (r : Result) (d : Directive) : Result :=
  let (width, r) := r.takeMeasure d.width
  let (precision, r) := match d.precision with
    | none => (none, r)
    | some m =>
      let (p, r) := r.takeMeasure m
      (some p, r)
  let cut (text : Text) : Text := match precision with
    | some p => text.take p
    | none => text
  if d.conversion = 's' then
    let (text, r) := r.takeText
    r.write (pad d.flags width (cut text))
  else if d.conversion = 'b' then
    let (text, r) := r.takeText
    let (text, ended) := interpretAll text
    { r.write (pad d.flags width (cut text)) with ended := ended }
  else if d.conversion = 'c' then
    let (text, r) := r.takeText
    r.write (pad d.flags width [text.headD '\x00'])
  else
    let (n, r) := r.takeNumber
    r.write (number d.flags width precision d.conversion n)

def Result.put (r : Result) (piece : Piece) : Result :=
  if r.ended || r.invalid.isSome then r
  else match piece with
    | .char c => r.write [c]
    | .directive d => r.fill d
    | .invalid text => { r with invalid := some text }

def rounds (ps : List Piece) : Nat → Result → Result
  | 0, r => r
  | steps + 1, r =>
    let after := ps.foldl Result.put r
    if after.ended || after.invalid.isSome || after.rest.isEmpty ||
        after.rest.length = r.rest.length then after
    else rounds ps steps after

def run (format : Text) (arguments : List Text) : Result :=
  rounds (pieces (format.length + 1) format) (arguments.length + 1) ⟨[], [], false, none, arguments⟩

end ReleaseTrain.Shell.Format
