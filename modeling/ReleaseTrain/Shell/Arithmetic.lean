import ReleaseTrain.Shell.Syntax
import ReleaseTrain.Text.Split

/-!
Arithmetic in scripts: whole numbers of 64 bits, variables, and the operators in their usual order
of precedence.
-/

namespace ReleaseTrain.Shell.Arithmetic

inductive Expression
  | number (value : Int)
  | variable (name : Text)
  | unary (operator : Char) (operand : Expression)
  | binary (operator : String) (left right : Expression)
  | conditional (condition yes no : Expression)
  | assignment (name : Text) (operator : String) (value : Expression)
  deriving Repr

/-- The operators between two operands, from the loosest to the tightest. -/
def levels : List (List String) :=
  [["||"], ["&&"], ["|"], ["^"], ["&"], ["==", "!="], ["<=", ">=", "<", ">"], ["<<", ">>"],
    ["+", "-"], ["*", "/", "%"]]

def assignmentOperators : List String :=
  ["=", "+=", "-=", "*=", "/=", "%=", "<<=", ">>=", "&=", "^=", "|="]

/-- The longest operator comes first where one begins with another. -/
def operators : List String :=
  ["<<=", ">>=", "&&", "||", "==", "!=", "<=", ">=", "<<", ">>", "+=", "-=", "*=", "/=", "%=",
    "&=", "^=", "|=", "+", "-", "*", "/", "%", "&", "|", "^", "<", ">", "=", "!", "~", "?", ":",
    "(", ")"]

inductive Token
  | number (value : Int)
  | name (name : Text)
  | operator (text : String)
  deriving DecidableEq, Repr

def digitValue? (base : Nat) (c : Char) : Option Nat :=
  let v :=
    if c.isDigit then c.toNat - 48
    else if 'a' ≤ c && c ≤ 'z' then c.toNat - 87
    else if 'A' ≤ c && c ≤ 'Z' then c.toNat - 55
    else base
  if v < base then some v else none

def digits? (base : Nat) (text : Text) : Option Nat :=
  if text.isEmpty then none
  else text.foldlM (fun n c ↦ (digitValue? base c).map (base * n + ·)) 0

/-- A number without a sign: hexadecimal behind `0x`, octal behind `0`, else decimal. -/
def natural? : Text → Option Nat
  | '0' :: 'x' :: rest | '0' :: 'X' :: rest => digits? 16 rest
  | '0' :: c :: rest => digits? 8 (c :: rest)
  | text => digits? 10 text

def isSpace (c : Char) : Bool := c == ' ' || ('\t' ≤ c && c ≤ '\r')

def integer? (text : Text) : Option Int :=
  let text := (text.dropWhile isSpace).reverse.dropWhile isSpace |>.reverse
  match text with
  | '-' :: rest => (natural? rest).map fun n ↦ -(n : Int)
  | '+' :: rest => (natural? rest).map Int.ofNat
  | text => (natural? text).map Int.ofNat

def tokens : Nat → Text → Option (List Token)
  | 0, _ => none
  | _, [] => some []
  | steps + 1, c :: rest =>
    if isSpace c then tokens steps rest
    else if c.isDigit then
      let digits := c :: rest.takeWhile Char.isAlphanum
      match natural? digits with
      | some n => (tokens steps (rest.drop (digits.length - 1))).map (.number n :: ·)
      | none => none
    else if c.isAlpha || c == '_' then
      let name := c :: rest.takeWhile fun c ↦ c.isAlphanum || c == '_'
      (tokens steps (rest.drop (name.length - 1))).map (.name name :: ·)
    else
      match operators.find? fun o ↦ o.toList.isPrefixOf (c :: rest) with
      | some o => (tokens steps ((c :: rest).drop o.length)).map (.operator o :: ·)
      | none => none

abbrev Reader := StateT (List Token) Option

def accept? (these : List String) : Reader (Option String) := do
  match ← get with
  | .operator o :: rest =>
    if these.contains o then do set rest; return some o else return none
  | _ => return none

def expect (operator : String) : Reader Unit := do
  if (← accept? [operator]).isNone then failure

mutual

/-- An assignment, which takes everything to its right, or a choice, or less. -/
def conditional : Nat → Reader Expression
  | 0 => failure
  | steps + 1 => do
    match ← get with
    | .name name :: .operator o :: rest =>
      if assignmentOperators.contains o then
        set rest
        return .assignment name o (← conditional steps)
      else choice steps
    | _ => choice steps

def choice : Nat → Reader Expression
  | 0 => failure
  | steps + 1 => do
    let condition ← level steps levels
    match ← accept? ["?"] with
    | some _ =>
      let yes ← conditional steps
      expect ":"
      return .conditional condition yes (← conditional steps)
    | none => return condition

def level : Nat → List (List String) → Reader Expression
  | 0, _ => failure
  | steps + 1, [] => unary steps
  | steps + 1, these :: tighter => do
    chain steps these tighter (← level steps tighter)

/-- Operators of one level bind to the left. -/
def chain : Nat → List String → List (List String) → Expression → Reader Expression
  | 0, _, _, _ => failure
  | steps + 1, these, tighter, left => do
    match ← accept? these with
    | some o => chain steps these tighter (.binary o left (← level steps tighter))
    | none => return left

def unary : Nat → Reader Expression
  | 0 => failure
  | steps + 1 => do
    match ← accept? ["-", "+", "!", "~", "("] with
    | some "(" =>
      let e ← conditional steps
      expect ")"
      return e
    | some o => return .unary o.front (← unary steps)
    | none =>
      match ← get with
      | .number n :: rest => do set rest; return .number n
      | .name name :: rest => do set rest; return .variable name
      | _ => failure

end

inductive Failure
  | operandMissing
  | tooLong
  | divisionByZero
  | illegalNumber (text : Text)
  deriving DecidableEq, Repr

def parse (text : Text) : Except Failure Expression :=
  match tokens (text.length + 1) text with
  | none => .error .tooLong
  | some ts =>
    match (conditional (16 * ts.length + 32)).run ts with
    | none => .error .operandMissing
    | some (e, rest) => if rest.isEmpty then .ok e else .error .tooLong

/-- The number of values that 64 bits may have. -/
def words : Nat := 0x10000000000000000

/-- The value that a number has in 64 bits with a sign. -/
def wrap (n : Int) : Int := Int.bmod n words

abbrev Variables := List (Text × Text)

abbrev Evaluation := StateT Variables (Except Failure)

def truth (b : Bool) : Int := if b then 1 else 0

def bits (n : Int) : Nat := (n % words).toNat

def apply (operator : String) (a b : Int) : Except Failure Int :=
  match operator with
  | "|" => .ok (wrap (bits a ||| bits b))
  | "^" => .ok (wrap (bits a ^^^ bits b))
  | "&" => .ok (wrap (bits a &&& bits b))
  | "==" => .ok (truth (a == b))
  | "!=" => .ok (truth (a != b))
  | "<=" => .ok (truth (a ≤ b))
  | ">=" => .ok (truth (b ≤ a))
  | "<" => .ok (truth (a < b))
  | ">" => .ok (truth (b < a))
  | "<<" => .ok (wrap (a * Nat.pow 2 (b % 64).toNat))
  | ">>" => .ok (a / Nat.pow 2 (b % 64).toNat)
  | "+" => .ok (wrap (a + b))
  | "-" => .ok (wrap (a - b))
  | "*" => .ok (wrap (a * b))
  | "/" => if b = 0 then .error .divisionByZero else .ok (wrap (Int.tdiv a b))
  | "%" => if b = 0 then .error .divisionByZero else .ok (Int.tmod a b)
  | _ => .ok b

def valueOf (name : Text) : Evaluation Int := do
  match (← get).lookup name with
  | none | some [] => return 0
  | some text =>
    match integer? text with
    | some n => return wrap n
    | none => throw (.illegalNumber text)

def textOf (n : Int) : Text := (toString n).toList

/-- The right side is left alone where the left one decides. -/
def evaluate : Expression → Evaluation Int
  | .number n => return min n (words / 2 - 1)
  | .variable name => valueOf name
  | .unary o e => do
    let a ← evaluate e
    return match o with
      | '-' => wrap (-a)
      | '!' => truth (a == 0)
      | '~' => -a - 1
      | _ => a
  | .binary "&&" a b => do
    if (← evaluate a) = 0 then return 0
    return truth ((← evaluate b) != 0)
  | .binary "||" a b => do
    if (← evaluate a) ≠ 0 then return 1
    return truth ((← evaluate b) != 0)
  | .binary o a b => do
    let x ← evaluate a
    let y ← evaluate b
    apply o x y
  | .conditional c a b => do if (← evaluate c) ≠ 0 then evaluate a else evaluate b
  | .assignment name o e => do
    let y ← evaluate e
    let v ← if o = "=" then pure y else do
      let x ← valueOf name
      apply (String.ofList (o.toList.dropLast)) x y
    modify fun vs ↦ (name, textOf v) :: vs.filter (·.1 ≠ name)
    return v

def run (text : Text) (bindings : Variables) : Except Failure (Int × Variables) :=
  (parse text).bind fun e ↦ (evaluate e).run bindings

end ReleaseTrain.Shell.Arithmetic
