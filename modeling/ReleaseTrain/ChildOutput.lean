import ReleaseTrain.Text.Utf8

/-!
The lines of what a command writes. A stream is read line by line as long as the lines are text;
with the first one that is not, the reading of the stream ends.
-/

namespace ReleaseTrain.ChildOutput

open Text (Bytes)

/-- A byte and the time when it is written. -/
structure Stamped where
  time : Nat
  byte : UInt8
  deriving DecidableEq, Repr

abbrev Stream := List Stamped

def newline : UInt8 := 10

def carriageReturn : UInt8 := 13

/-- A line, and whether it has its end. It is there when its last byte is. -/
structure Line where
  bytes : Bytes
  time : Nat
  ended : Bool
  deriving DecidableEq, Repr

/-- The lines of a stream. Behind the last end of a line another line begins only with a byte. -/
def lines : Stream → List Line
  | [] => []
  | s :: rest =>
    if s.byte = newline then ⟨[], s.time, true⟩ :: lines rest
    else match lines rest with
      | [] => [⟨[s.byte], s.time, false⟩]
      | l :: ls => { l with bytes := s.byte :: l.bytes } :: ls

/-- What a line says. Its end is one newline, together with a carriage return in front of it. -/
def Line.content (l : Line) : Bytes :=
  if l.ended && l.bytes.getLast? = some carriageReturn then l.bytes.dropLast else l.bytes

def Line.written (l : Line) : Bytes := if l.ended then l.bytes ++ [newline] else l.bytes

def Line.text? (l : Line) : Option String :=
  if (Text.decode? l.written).isSome then Text.decode? l.content else none

def read : List Line → List (Nat × String)
  | [] => []
  | l :: ls =>
    match l.text? with
    | some text => (l.time, text) :: read ls
    | none => []

def readAll (stream : Stream) : List (Nat × String) := read (lines stream)

/-- The lines that were there before a time, when nobody reads on. -/
def readBefore (time : Nat) (stream : Stream) : List (Nat × String) :=
  read ((lines stream).filter fun l ↦ l.ended && l.time < time)

/-- The lines of two streams in the order in which they are there, the first stream's first. -/
def merge (output errors : List (Nat × String)) : List String :=
  (List.merge output errors fun a b ↦ a.1 ≤ b.1).map (·.2)

theorem written_lines (stream : Stream) :
    (lines stream).flatMap Line.written = stream.map Stamped.byte := by
  induction stream with
  | nil => rfl
  | cons s rest ih =>
    unfold lines
    split
    · next h => simp [Line.written, ih, h]
    · split
      · next h => simp_all [Line.written]
      · next l ls h =>
        rw [h] at ih
        have hw : Line.written { l with bytes := s.byte :: l.bytes } = s.byte :: l.written := by
          cases hl : l.ended <;> simp [Line.written, hl]
        simp [hw, ← ih]

end ReleaseTrain.ChildOutput
