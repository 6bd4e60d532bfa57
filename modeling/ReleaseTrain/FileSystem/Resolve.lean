import ReleaseTrain.FileSystem.Basic
import ReleaseTrain.FileSystem.Failure

/-!
From a path to the location it names: relative paths start from the working directory, `..` goes
up, and symbolic links are followed on the way.
-/

namespace ReleaseTrain

open Text (Bytes)

namespace FileSystem

/-- A path as the system reads it. A separator at its end demands a directory. -/
structure Route where
  fromRoot : Bool
  steps : List Name
  directory : Bool
  deriving DecidableEq, Repr

def separator : UInt8 := 47

def stepHere : Name := [46]

def stepUp : Name := [46, 46]

def names : Bytes → List Name
  | [] => [[]]
  | b :: bs =>
    if b = separator then [] :: names bs
    else match names bs with
      | [] => [[b]]
      | n :: ns => (b :: n) :: ns

def Route.ofBytes (path : Bytes) : Route where
  fromRoot := path.head? = some separator
  steps := (names path).filter (· ≠ [])
  directory := path.getLast? = some separator

/-- What a path leads to: something that stands there, or a free place in a directory. -/
inductive Target
  | found (location : Location) (node : Node)
  | free (directory : Location) (name : Name)
  deriving Repr

/-- Follows steps from a location. A link at the very end is followed only on demand, and no more
than so many links in all. -/
def walk (fs : FileSystem) (followLast : Bool) (links : Nat) (here : Location)
    (steps : List Name) : Except Failure Target :=
  match fs.get? here, steps with
  | none, _ => .error .notFound
  | some node, [] => .ok (.found here node)
  | some .directory, step :: rest =>
    if step = stepHere then walk fs followLast links here rest
    else if step = stepUp then walk fs followLast links here.dropLast rest
    else if 255 < step.length then .error .nameTooLong
    else
      match fs.get? (here ++ [step]), rest with
      | none, [] => .ok (.free here step)
      | none, _ :: _ => .error .notFound
      | some (.link target), rest =>
        if rest = [] ∧ !followLast then .ok (.found (here ++ [step]) (.link target))
        else
          match links with
          | 0 => .error .tooManyLinks
          | links + 1 =>
            let route := Route.ofBytes target
            if target = [] then .error .notFound
            else
              walk fs followLast links (if route.fromRoot then [] else here)
                (route.steps ++ (if route.directory then [stepHere] else []) ++ rest)
      | some _, rest => walk fs followLast links (here ++ [step]) rest
  | some _, _ :: _ => .error .notDirectory
termination_by (links, steps.length)

def maxLinks : Nat := 40

def maxPath : Nat := 4095

def checkPath (path : Bytes) : Except Failure Unit :=
  if path.contains 0 then .error .nulInPath
  else if path = [] then .error .notFound
  else if maxPath < path.length then .error .nameTooLong
  else .ok ()

/-- What a path leads to; a last link is followed if so wanted or if a separator comes after it. -/
def resolve (fs : FileSystem) (path : Bytes) (followLast : Bool) : Except Failure Target := do
  checkPath path
  let route := Route.ofBytes path
  walk fs followLast maxLinks (if route.fromRoot then [] else fs.workingDirectory)
    (route.steps ++ if route.directory then [stepHere] else [])

end FileSystem

end ReleaseTrain
