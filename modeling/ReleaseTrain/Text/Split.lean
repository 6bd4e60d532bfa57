/-!
Cutting text at a separator and removing a fixed beginning or end.
-/

namespace ReleaseTrain.Text

/-- The stretches of a text between its separators; a text without one is its own only stretch. -/
def pieces (sep : Char) : List Char → List (List Char)
  | [] => [[]]
  | c :: cs =>
    if c = sep then [] :: pieces sep cs
    else match pieces sep cs with
      | [] => [[c]]
      | p :: ps => (c :: p) :: ps

def split (sep : Char) (s : String) : List String :=
  (pieces sep s.toList).map String.ofList

theorem pieces_ne_nil (sep : Char) (cs : List Char) : pieces sep cs ≠ [] := by
  cases cs with
  | nil => simp [pieces]
  | cons c cs =>
    unfold pieces
    split
    · simp
    · split <;> simp

/-- What follows a fixed beginning, if the text begins so. -/
def after? : List Char → List Char → Option (List Char)
  | [], cs => some cs
  | _ :: _, [] => none
  | p :: ps, c :: cs => if p = c then after? ps cs else none

theorem after?_eq_some_iff {p cs rest : List Char} :
    after? p cs = some rest ↔ cs = p ++ rest := by
  induction p generalizing cs with
  | nil => simp [after?]
  | cons d p ih =>
    cases cs with
    | nil => simp [after?]
    | cons c cs =>
      by_cases h : d = c
      · simp [after?, h, ih]
      · simp [after?, h, Ne.symm h]

def occursIn (part : List Char) : List Char → Bool
  | [] => part.isEmpty
  | c :: cs => part.isPrefixOf (c :: cs) || occursIn part cs

def replace (part new : List Char) : List Char → List Char
  | [] => []
  | c :: rest =>
    match _h : after? part (c :: rest) with
    | some after =>
      if _hp : part = [] then c :: replace part new rest else new ++ replace part new after
    | none => c :: replace part new rest
termination_by cs => cs.length
decreasing_by
  · simp
  · have hl := congrArg List.length (after?_eq_some_iff.1 _h)
    have := List.length_pos_iff.2 _hp
    simp only [List.length_append, List.length_cons] at hl ⊢
    omega
  · simp

def trimEnd (sep : Char) (cs : List Char) : List Char :=
  (cs.reverse.dropWhile (· == sep)).reverse

def join (sep : String) : List String → String
  | [] => ""
  | [s] => s
  | s :: ss => s ++ sep ++ join sep ss

def padEnd (width : Nat) (s : String) : String :=
  s ++ String.ofList (List.replicate (width - s.length) ' ')

end ReleaseTrain.Text
