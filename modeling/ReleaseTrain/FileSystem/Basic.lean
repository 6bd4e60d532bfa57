import ReleaseTrain.Text.Utf8

/-!
A file system: what stands at each location. Everything an operation does to it shows in `get?`.
-/

namespace ReleaseTrain

open Text (Bytes)

/-- A file's name. It need not be text. -/
abbrev Name := Bytes

/-- Where something stands: the names on the way from the root. -/
abbrev Location := List Name

/-- An entry of a zip archive. A directory's name ends with its separator. -/
inductive ArchiveEntry
  | directory (name : String)
  | file (name : String) (mode : Nat) (content : Bytes)
  deriving DecidableEq, Repr

def ArchiveEntry.name : ArchiveEntry → String
  | directory name => name
  | file name _ _ => name

/-- What a file holds. Of an archive only its entries are kept, not how they are packed. -/
inductive Content
  | bytes (bytes : Bytes)
  | archive (entries : List ArchiveEntry)
  deriving DecidableEq, Repr

/-- What stands for a content where its bytes are asked for. -/
def Content.toBytes : Content → Bytes
  | bytes b => b
  | archive entries => entries.flatMap fun
    | .directory _ => []
    | .file _ _ content => content

inductive Node
  | file (content : Content) (mode : Nat)
  | directory
  | link (target : Bytes)
  deriving DecidableEq, Repr

/-- The entries below the root, and the directory that relative paths start from. The system may
refuse to remove what stands at some places. Of a directory's contents the removal has left by then
what is listed with it, and the directories on the way there. -/
structure FileSystem where
  entries : List (Location × Node) := []
  workingDirectory : Location := []
  refusals : List (Location × List Location) := []
  deriving Repr, Inhabited

namespace FileSystem

/-- What stands at a location. The root is always a directory. -/
def get? (fs : FileSystem) (l : Location) : Option Node :=
  if l = [] then some .directory else fs.entries.lookup l

def set (fs : FileSystem) (l : Location) (node : Node) : FileSystem :=
  { fs with entries := (l, node) :: fs.entries.filter (·.1 ≠ l) }

def removeTree (fs : FileSystem) (l : Location) : FileSystem :=
  { fs with entries := fs.entries.filter fun e ↦ !l.isPrefixOf e.1 }

def isBelow (l : Location) (m : Location) : Bool := l.isPrefixOf m && l ≠ m

/-- Whether the location is in the directory and not on the way to anything that is left. -/
def isCleared (l : Location) (left : List Location) (m : Location) : Bool :=
  isBelow l m && !left.any m.isPrefixOf

def removeBelow (fs : FileSystem) (l : Location) (left : List Location := []) : FileSystem :=
  { fs with entries := fs.entries.filter fun e ↦ !isCleared l left e.1 }

def below (fs : FileSystem) (l : Location) : List (Location × Node) :=
  fs.entries.filter fun e ↦ isBelow l e.1

/-- What stands directly in a directory, as the system lists it. -/
def listed (fs : FileSystem) (l : Location) : List (Location × Node) :=
  fs.entries.filter fun e ↦ e.1 ≠ [] ∧ e.1.dropLast = l

theorem get?_root (fs : FileSystem) : fs.get? [] = some .directory := rfl

theorem get?_set_self {fs : FileSystem} {l : Location} (node : Node) (h : l ≠ []) :
    (fs.set l node).get? l = some node := by
  simp [get?, set, h]

theorem lookup_filter_of_imp {p : Location × Node → Bool} {l : Location}
    (h : ∀ node, p (l, node) = true) (entries : List (Location × Node)) :
    (entries.filter p).lookup l = entries.lookup l := by
  induction entries with
  | nil => rfl
  | cons e es ih =>
    obtain ⟨m, node⟩ := e
    by_cases hm : l = m
    · subst hm
      simp [h]
    · have hl : (l == m) = false := by simp [hm]
      cases hp : p (m, node) <;> simp [List.lookup_cons, hp, hl, ih]

theorem lookup_filter_of_not {p : Location × Node → Bool} {l : Location}
    (h : ∀ node, p (l, node) = false) (entries : List (Location × Node)) :
    (entries.filter p).lookup l = none := by
  induction entries with
  | nil => rfl
  | cons e es ih =>
    obtain ⟨m, node⟩ := e
    by_cases hm : l = m
    · subst hm
      simp [h, ih]
    · have hl : (l == m) = false := by simp [hm]
      cases hp : p (m, node) <;> simp [List.lookup_cons, hp, hl, ih]

theorem get?_set_of_ne {fs : FileSystem} {l m : Location} (node : Node) (h : m ≠ l) :
    (fs.set l node).get? m = fs.get? m := by
  have hm : (m == l) = false := by simp [h]
  have hf := lookup_filter_of_imp (p := fun e ↦ decide (e.1 ≠ l)) (l := m) (by simp [h]) fs.entries
  by_cases hr : m = []
  · simp [get?, hr]
  · simp only [get?, set, hr, if_false, List.lookup_cons, hm]
    exact hf

theorem get?_removeTree {fs : FileSystem} {l m : Location} (h : m ≠ []) :
    (fs.removeTree l).get? m = if l.isPrefixOf m then none else fs.get? m := by
  cases hp : l.isPrefixOf m with
  | true =>
    have := lookup_filter_of_not (p := fun e ↦ !l.isPrefixOf e.1) (l := m) (by simp [hp]) fs.entries
    simpa [get?, removeTree, h] using this
  | false =>
    have := lookup_filter_of_imp (p := fun e ↦ !l.isPrefixOf e.1) (l := m) (by simp [hp]) fs.entries
    simpa [get?, removeTree, h] using this

theorem get?_removeBelow {fs : FileSystem} {l m : Location} {left : List Location} :
    (fs.removeBelow l left).get? m =
      if isCleared l left m ∧ m ≠ [] then none else fs.get? m := by
  by_cases h : m = []
  · simp [get?, h]
  cases hp : isCleared l left m with
  | true =>
    have := lookup_filter_of_not (p := fun e ↦ !isCleared l left e.1) (l := m) (by simp [hp])
      fs.entries
    simpa [get?, removeBelow, h] using this
  | false =>
    have := lookup_filter_of_imp (p := fun e ↦ !isCleared l left e.1) (l := m) (by simp [hp])
      fs.entries
    simpa [get?, removeBelow, h] using this

end FileSystem

end ReleaseTrain
