/-!
Shell scripts: words with their expansions, and the commands made of them. Text is a list of
characters below 256, one for each byte.
-/

namespace ReleaseTrain.Shell

abbrev Text := List Char

/-- What is made of a parameter's value. The texts beside the operators are words themselves. -/
inductive Operator
  | plain
  | length
  | default
  | assign
  | alternative
  | complain
  | cutEnd (longest : Bool)
  | cutStart (longest : Bool)
  deriving DecidableEq, Repr

inductive Direction
  | input
  | output
  | append
  | duplicate
  /-- The target is the text that is read itself. -/
  | document
  deriving DecidableEq, Repr

mutual

/-- A stretch of a word. What comes out of an expansion outside quotes is split at blanks. -/
inductive Part
  | plain (text : Text)
  | quoted (text : Text)
  | parameter (name : Text) (operator : Operator) (nullToo : Bool) (word : List Part)
      (inQuotes : Bool)
  | arithmetic (expression : List Part) (inQuotes : Bool)
  | substitution (body : Command) (inQuotes : Bool)

inductive Redirection
  | mk (descriptor : Nat) (direction : Direction) (target : List Part)

inductive Command
  | nothing
  | simple (line : Nat) (assignments : List (Text × List Part)) (words : List (List Part))
      (redirections : List Redirection)
  | sequence (first second : Command)
  | both (first second : Command)
  | either (first second : Command)
  | negated (body : Command)
  | background (body : Command)
  | pipe (first second : Command)
  | branch (condition yes no : Command)
  | loop (untilTrue : Bool) (condition body : Command)
  | each (name : Text) (words : Option (List (List Part))) (body : Command)
  | choice (word : List Part) (cases : List (List (List Part) × Command))
  | definition (name : Text) (body : Command)
  | group (body : Command) (redirections : List Redirection)
  | subshell (body : Command) (redirections : List Redirection)

end

abbrev Word := List Part

instance : Inhabited Command := ⟨.nothing⟩

end ReleaseTrain.Shell
