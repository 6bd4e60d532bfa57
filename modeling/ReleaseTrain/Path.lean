import ReleaseTrain.Text.Split
import ReleaseTrain.Text.Utf8

/-!
Paths as text. A path may be relative or absolute and need not name anything that exists; joining
and resolving look at the text alone.
-/

namespace ReleaseTrain

structure Path where
  text : String
  deriving DecidableEq, Repr, Inhabited

namespace Path

def bytes (p : Path) : Text.Bytes := Text.encode p.text

def isAbsolute (p : Path) : Bool := p.text.toList.head? == some '/'

/-- An absolute right side stands for itself; else one `/` is put between the sides unless the
left side is empty or already ends with one. -/
def join (p : Path) (right : String) : Path :=
  if right.toList.head? = some '/' then ⟨right⟩
  else if p.text.isEmpty || p.text.toList.getLast? == some '/' then ⟨p.text ++ right⟩
  else ⟨p.text ++ "/" ++ right⟩

/-- A path reads as its components: the root, `..`, and names. A `.` counts only at the very
beginning of a relative path, repeated and trailing separators not at all. -/
inductive Component
  | root
  | current
  | parent
  | name (text : List Char)
  deriving DecidableEq, Repr

namespace Component

def toChars : Component → List Char
  | root => ['/']
  | current => ['.']
  | parent => ['.', '.']
  | name text => text

end Component

/-- The components of the stretches between separators, `.` and empty ones left out. -/
def componentsOfPieces (ps : List (List Char)) : List Component :=
  ps.filterMap fun p ↦
    if p = [] ∨ p = ['.'] then none
    else if p = ['.', '.'] then some .parent
    else some (.name p)

def components (p : Path) : List Component :=
  let ps := Text.pieces '/' p.text.toList
  if p.isAbsolute then .root :: componentsOfPieces ps
  else if ps.head? = some ['.'] then .current :: componentsOfPieces ps
  else componentsOfPieces ps

def charsOfComponents : List Component → List Char
  | [] => []
  | [c] => c.toChars
  | .root :: cs => '/' :: charsOfComponents cs
  | c :: cs => c.toChars ++ '/' :: charsOfComponents cs

def ofComponents (cs : List Component) : Path := ⟨String.ofList (charsOfComponents cs)⟩

def parent? (p : Path) : Option Path :=
  match p.components.getLast? with
  | none | some .root => none
  | some _ => some (ofComponents p.components.dropLast)

/-- A `..` removes the name before it and stays at the root. -/
def climb (kept : List Component) : List Component :=
  if kept = [.root] then kept else kept.dropLast

def resolveStep (kept : List Component) : Component → List Component
  | .root => kept
  | .current => kept
  | .parent => climb kept
  | .name text => kept ++ [.name text]

/-- The components from which a path is resolved, and the components still to be read. -/
def resolveStart (cs : List Component) (base : Path) : List Component × List Component :=
  match cs with
  | .root :: rest => ([.root], rest)
  | .current :: rest => (base.components, rest)
  | .parent :: rest =>
    match base.parent? with
    | some up => (up.components, rest)
    | none => if base.isAbsolute then ([.root], rest) else ([], rest)
  | rest => (base.components, rest)

/-- Resolves a path against a base directory by its text, asking no file system. -/
def absolute (p base : Path) : Path :=
  match p.components with
  | [] => base
  | cs =>
    let (start, rest) := resolveStart cs base
    ofComponents (rest.foldl resolveStep start)

end Path

end ReleaseTrain
