import ReleaseTrain.Error
import ReleaseTrain.Text.Split

/-!
Release versions `MAJOR.MINOR.PATCH[-PRERELEASE]`. The numbers are runs of digits kept as written,
so leading zeros count.
-/

namespace ReleaseTrain

structure Version where
  major : String
  minor : String
  patch : String
  prerelease : Option String
  deriving DecidableEq, Repr, Inhabited

namespace Version

def core (v : Version) : String := v.major ++ "." ++ v.minor ++ "." ++ v.patch

def text (v : Version) : String :=
  match v.prerelease with
  | none => v.core
  | some p => v.core ++ "-" ++ p

/-- The numeric version stamped into binaries: four numbers, the last one zero. -/
def fileVersion (v : Version) : String := v.core ++ ".0"

def isPrereleaseChar (c : Char) : Bool := c.isAlphanum || c == '.' || c == '-'

/-- The digits at the beginning, at least one, and what follows them. -/
def number? (cs : List Char) : Option (List Char × List Char) :=
  match cs.takeWhile Char.isDigit with
  | [] => none
  | d :: ds => some (d :: ds, cs.dropWhile Char.isDigit)

/-- What may follow the three numbers: nothing, or a dash and the prerelease. -/
def suffix? : List Char → Option (Option (List Char))
  | [] => some none
  | '-' :: c :: cs => if (c :: cs).all isPrereleaseChar then some (some (c :: cs)) else none
  | _ => none

def ofChars? (cs : List Char) : Option Version := do
  let (major, cs) ← number? cs
  let cs ← Text.after? ['.'] cs
  let (minor, cs) ← number? cs
  let cs ← Text.after? ['.'] cs
  let (patch, cs) ← number? cs
  let prerelease ← suffix? cs
  return ⟨.ofList major, .ofList minor, .ofList patch, prerelease.map .ofList⟩

def parse (input : String) : Except ReleaseError Version :=
  match ofChars? input.toList with
  | some v => .ok v
  | none => .error (.invalidVersion input)

example : (parse "1.2.3-rc.1-hotfix").toOption.map fileVersion = some "1.2.3.0" := by cbv
example : (parse "1.2.3-").toOption = none := by cbv
example : (parse "1.0.0.0").toOption = none := by cbv

end Version

end ReleaseTrain
