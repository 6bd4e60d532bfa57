import ReleaseTrain.Shell.Syntax

/-!
Patterns for names and values: `*` stands for any text, `?` for any character, and brackets for one
of several. A character that was quoted stands for itself.
-/

namespace ReleaseTrain.Shell

structure Glyph where
  char : Char
  literal : Bool := false
  deriving DecidableEq, Repr

def Glyph.isActive (g : Glyph) (c : Char) : Bool := !g.literal && g.char == c

def literals (text : Text) : List Glyph := text.map (⟨·, true⟩)

namespace Pattern

inductive Atom
  | run
  | any
  | one (char : Char)
  | among (inside : Bool) (ranges : List (Char × Char))
  deriving DecidableEq, Repr

/-- What stands in brackets up to the closing one, which is no member unless it comes first. -/
def members : Nat → (first : Bool) → List Glyph → Option (List (Char × Char) × List Glyph)
  | 0, _, _ => none
  | _, _, [] => none
  | steps + 1, first, g :: rest =>
    if g.isActive ']' && !first then some ([], rest)
    else
      match rest with
      | dash :: last :: after =>
        if dash.isActive '-' && !last.isActive ']' then
          (members steps false after).map fun (ms, r) ↦ ((g.char, last.char) :: ms, r)
        else (members steps false rest).map fun (ms, r) ↦ ((g.char, g.char) :: ms, r)
      | _ => (members steps false rest).map fun (ms, r) ↦ ((g.char, g.char) :: ms, r)

/-- A bracket that is never closed stands for itself. -/
def bracket (rest : List Glyph) : Option (Atom × List Glyph) :=
  let negated := rest.head?.any fun g ↦ g.isActive '!' || g.isActive '^'
  let inner := if negated then rest.tail else rest
  (members (inner.length + 1) true inner).map fun (ms, after) ↦ (.among (!negated) ms, after)

def atoms : Nat → List Glyph → List Atom
  | 0, _ => []
  | _, [] => []
  | steps + 1, g :: rest =>
    if g.isActive '*' then .run :: atoms steps rest
    else if g.isActive '?' then .any :: atoms steps rest
    else if g.isActive '[' then
      match bracket rest with
      | some (atom, after) => atom :: atoms steps after
      | none => .one '[' :: atoms steps rest
    else .one g.char :: atoms steps rest

def ofGlyphs (gs : List Glyph) : List Atom := atoms gs.length gs

def Atom.admits (c : Char) : Atom → Bool
  | run | any => true
  | one d => c == d
  | among inside ranges => (ranges.any fun (a, b) ↦ a ≤ c && c ≤ b) == inside

def suffixes : Text → List Text
  | [] => [[]]
  | c :: cs => (c :: cs) :: suffixes cs

def fits : List Atom → Text → Bool
  | [], text => text.isEmpty
  | .run :: atoms, text => (suffixes text).any (fits atoms)
  | _ :: _, [] => false
  | atom :: atoms, c :: cs => atom.admits c && fits atoms cs

/-- Whether anything in a word makes it more than a name. -/
def isPattern (gs : List Glyph) : Bool :=
  gs.any fun g ↦ g.isActive '*' || g.isActive '?' || g.isActive '['

def beginnings (text : Text) : List Text := (List.range (text.length + 1)).map text.take

def cutEnd (atoms : List Atom) (longest : Bool) (text : Text) : Text :=
  let kept := beginnings text
  ((if longest then kept else kept.reverse).find?
    fun b ↦ fits atoms (text.drop b.length)).getD text

def cutStart (atoms : List Atom) (longest : Bool) (text : Text) : Text :=
  let cut := beginnings text
  match (if longest then cut.reverse else cut).find? (fits atoms) with
  | some b => text.drop b.length
  | none => text

end Pattern

end ReleaseTrain.Shell
