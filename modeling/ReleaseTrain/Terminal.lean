import ReleaseTrain.Shell.State

/-!
Which of the streams are terminals, and what the keys typed there answer to a question.
-/

namespace ReleaseTrain

structure Terminal where
  input : Bool := false
  output : Bool := false
  errors : Bool := false
  deriving DecidableEq, Repr

namespace Terminal

/-- The letters that end the sequence of bytes of a key such as an arrow. -/
def keyEnds : List Char := ['A', 'B', 'C', 'D', 'F', 'H', 'Z']

/-- The answer that the keys give, and the keys behind it. The return key declines. The sequence of
a special key is one key, which like any other key says nothing. -/
def readAnswer : Shell.Text → Bool × Shell.Text
  | [] => (false, [])
  | '\x1b' :: '[' :: c :: rest =>
    if keyEnds.contains c then readAnswer rest
    else match rest with
      | [] => (false, [])
      | _ :: rest => readAnswer rest
  | '\x1b' :: _ :: rest => readAnswer rest
  | c :: rest =>
    if c = 'y' ∨ c = 'Y' then (true, rest)
    else if c = 'n' ∨ c = 'N' ∨ c = '\r' ∨ c = '\n' then (false, rest)
    else readAnswer rest

/-- A question can be put only where it is seen; else it counts as declined. -/
def answer (t : Terminal) (_ : String) (keys : Shell.Text) : Bool × Shell.Text :=
  if t.input && t.errors then readAnswer keys else (false, keys)

end Terminal

end ReleaseTrain
