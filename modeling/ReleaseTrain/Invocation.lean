import ReleaseTrain.Text.Split

/-!
A command to run, with a limit on its time, and how it ended.
-/

namespace ReleaseTrain

structure Invocation where
  program : String
  arguments : List String := []
  timeoutMs : Nat := 300000
  deriving DecidableEq, Repr

namespace Invocation

/-- An argument with a blank in it is shown between quotes. -/
def shown (argument : String) : String :=
  if argument.toList.contains ' ' then "\"" ++ argument ++ "\"" else argument

def text (i : Invocation) : String :=
  Text.join " " (i.program :: i.arguments.map shown)

def flagValue? (i : Invocation) (flag : String) : Option String :=
  (i.arguments.dropWhile (· ≠ flag))[1]?

def add (i : Invocation) (argument : String) : Invocation :=
  { i with arguments := i.arguments ++ [argument] }

end Invocation

/-- How a process ended: with an exit code, or by a signal and without one. -/
structure Outcome where
  code : Option Int
  deriving DecidableEq, Repr

def Outcome.success (o : Outcome) : Bool := o.code = some 0

end ReleaseTrain
