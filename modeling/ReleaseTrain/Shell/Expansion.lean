import ReleaseTrain.Shell.Pattern
import ReleaseTrain.Shell.State

/-!
From the stretches of a word to the texts that a command is given: the word is split at blanks that
came out of an expansion, and patterns become the paths that fit.
-/

namespace ReleaseTrain.Shell

inductive Piece
  | glyph (glyph : Glyph)
  /-- Part of a value outside quotes, where the word may be split. -/
  | soft (char : Char)
  | boundary
  /-- Quotes, which make a word even with nothing in between. -/
  | mark
  deriving DecidableEq, Repr

namespace Piece

def ofValue (inQuotes : Bool) (text : Text) : List Piece :=
  if inQuotes then (literals text).map glyph else text.map soft

def ofArguments (name : Char) (inQuotes : Bool) (ifs : Text) (arguments : List Text) :
    List Piece :=
  if inQuotes && name == '*' then
    let separator := (ifs.take 1)
    (literals (List.intercalate separator arguments)).map glyph
  else
    let words := arguments.map fun a ↦ (if inQuotes then [mark] else []) ++ ofValue inQuotes a
    List.intercalate [boundary] words

/-- What comes out of an expansion in quotes has lost every special meaning. -/
def quote : Piece → Piece
  | glyph g => glyph { g with literal := true }
  | soft c => glyph ⟨c, true⟩
  | p => p

def toGlyphs (pieces : List Piece) : List Glyph := pieces.flatMap fun
  | glyph g => [g]
  | soft c => [⟨c, false⟩]
  | boundary => [⟨' ', true⟩]
  | mark => []

def toText (pieces : List Piece) : Text := (toGlyphs pieces).map Glyph.char

def isBlank (c : Char) : Bool := c == ' ' || c == '\t' || c == '\n'

/-- Splits a word. The field that is being read is kept from its end. -/
def fields (ifs : Text) : List Piece → (current : Option (List Glyph)) → List (List Glyph)
  | [], current => (current.map List.reverse).toList
  | glyph g :: rest, current => fields ifs rest (some (g :: current.getD []))
  | mark :: rest, current => fields ifs rest (some (current.getD []))
  | boundary :: rest, current => (current.map List.reverse).toList ++ fields ifs rest none
  | soft c :: rest, current =>
    if !ifs.contains c then fields ifs rest (some (⟨c, false⟩ :: current.getD []))
    else if isBlank c then (current.map List.reverse).toList ++ fields ifs rest none
    else (current.getD []).reverse :: fields ifs rest none

end Piece

namespace Paths

def splitGlyphs : List Glyph → List (List Glyph)
  | [] => [[]]
  | g :: gs =>
    if g.char = '/' then [] :: splitGlyphs gs
    else match splitGlyphs gs with
      | [] => [[g]]
      | p :: ps => (g :: p) :: ps

def matching (fs : FileSystem) (directory : Text) (step : List Glyph) : List Text :=
  let path := if directory.isEmpty then ['.'] else directory
  match fs.directoryAt? (bytesOfText path) with
  | none => []
  | some l =>
    let names := ((fs.below l).filter (·.1.length = l.length + 1)).filterMap (·.1.getLast?)
    let hidden := (step.head?.map Glyph.char) = some '.'
    let fitting := (names.map textOfBytes).filter fun n ↦
      Pattern.fits (Pattern.ofGlyphs step) n && (hidden || n.head? ≠ some '.')
    fitting.mergeSort fun a b ↦ !decide (b < a)

/-- The paths that fit from a directory on, its text ending with a separator if it is not empty. -/
def expand (fs : FileSystem) (directory : Text) : List (List Glyph) → List Text
  | [] => []
  | [step] =>
    if Pattern.isPattern step then (matching fs directory step).map (directory ++ ·)
    else
      let path := directory ++ step.map Glyph.char
      if (fs.nodeAt? (bytesOfText path) false).isSome then [path] else []
  | step :: steps =>
    let names := if Pattern.isPattern step then matching fs directory step
      else [step.map Glyph.char]
    names.flatMap fun n ↦ expand fs (directory ++ n ++ ['/']) steps

/-- A pattern that no path fits stands for itself. -/
def ofField (fs : FileSystem) (plainly : Bool) (field : List Glyph) : List Text :=
  let plain := field.map Glyph.char
  if Pattern.isPattern field && !plainly then
    match expand fs [] (splitGlyphs field) with
    | [] => [plain]
    | paths => paths
  else [plain]

end Paths

end ReleaseTrain.Shell
