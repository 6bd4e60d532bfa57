import ReleaseTrain.FileSystem.Operations
import ReleaseTrain.Shell.Arithmetic
import ReleaseTrain.Shell.State

/-!
Conditions on texts, numbers and files, as `test` and `[` are asked.
-/

namespace ReleaseTrain.Shell.Condition

def comparisons : List String :=
  ["=", "!=", "<", ">", "-eq", "-ne", "-lt", "-le", "-gt", "-ge"]

def questions : List String :=
  ["-n", "-z", "-e", "-f", "-d", "-h", "-L", "-s", "-r", "-w", "-x", "-t", "-b", "-c", "-p", "-S",
    "-u", "-g", "-k"]

def number (text : Text) : Except Text Int :=
  let text := (text.dropWhile Arithmetic.isSpace).reverse.dropWhile Arithmetic.isSpace |>.reverse
  let (negative, digits) := match text with
    | '-' :: rest => (true, rest)
    | '+' :: rest => (false, rest)
    | text => (false, text)
  match Arithmetic.digits? 10 digits with
  | some n => .ok (if negative then -(n : Int) else n)
  | none => .error (textOfString "Illegal number: " ++ text)

def compare (operator : String) (a b : Text) : Except Text Bool :=
  match operator with
  | "=" => .ok (a == b)
  | "!=" => .ok (a != b)
  | "<" => .ok (decide (a < b))
  | ">" => .ok (decide (b < a))
  | _ => do
    let m ← number a
    let n ← number b
    return match operator with
      | "-eq" => m == n
      | "-ne" => m != n
      | "-lt" => m < n
      | "-le" => m ≤ n
      | "-gt" => n < m
      | _ => n ≤ m

/-- The answer to a question about one text, which names a file for most of them. -/
def ask (fs : FileSystem) (question : String) (text : Text) : Bool :=
  let node := fs.nodeAt? (bytesOfText text) true
  match question with
  | "-n" => !text.isEmpty
  | "-z" => text.isEmpty
  | "-e" | "-r" | "-w" => node.isSome
  | "-f" => fs.isFile (bytesOfText text)
  | "-d" => fs.isDirectory (bytesOfText text)
  | "-h" | "-L" => fs.isLink (bytesOfText text)
  | "-s" =>
    match node with
    | some (.file content _) => !content.toBytes.isEmpty
    | some _ => true
    | none => false
  | "-x" =>
    match node with
    | some (.file _ mode) => mode &&& 0o111 ≠ 0
    | some _ => true
    | none => false
  | _ => false

abbrev Reader := StateT (List Text) (Except Text)

def word? (words : List String) (text : Text) : Option String :=
  words.find? fun w ↦ w.toList = text

def unexpected (text : Text) : Text := text ++ textOfString ": unexpected operator"

mutual

def anyOf (fs : FileSystem) : Nat → Reader Bool
  | 0 => throw []
  | steps + 1 => do
    let a ← allOf fs steps
    match ← get with
    | ['-', 'o'] :: rest =>
      set rest
      let b ← anyOf fs steps
      return a || b
    | _ => return a

def allOf (fs : FileSystem) : Nat → Reader Bool
  | 0 => throw []
  | steps + 1 => do
    let a ← single fs steps
    match ← get with
    | ['-', 'a'] :: rest =>
      set rest
      let b ← allOf fs steps
      return a && b
    | _ => return a

/-- A comparison comes first where its operator stands in second place. -/
def single (fs : FileSystem) : Nat → Reader Bool
  | 0 => throw []
  | steps + 1 => do
    let words ← get
    match words, words[1]?.bind (word? comparisons) with
    | a :: _ :: b :: rest, some operator =>
      set rest
      compare operator a b
    | ['!'] :: rest@(_ :: _), _ =>
      set rest
      return !(← single fs steps)
    | ['('] :: rest@(_ :: _), _ =>
      set rest
      let a ← anyOf fs steps
      match ← get with
      | [')'] :: rest => do set rest; return a
      | _ => throw (textOfString "closing paren expected")
    | q :: text :: rest, _ =>
      match word? questions q with
      | some question => do set rest; return ask fs question text
      | none => do set (text :: rest); return !q.isEmpty
    | [text], _ => do set ([] : List Text); return !text.isEmpty
    | [], _ => throw (textOfString "argument expected")

end

def holds (fs : FileSystem) (words : List Text) : Except Text Bool :=
  if words.isEmpty then .ok false
  else do
    let (answer, rest) ← (anyOf fs (4 * words.length + 8)).run words
    match rest with
    | [] => return answer
    | _ :: _ => throw (unexpected (words.headD []))

end ReleaseTrain.Shell.Condition
