import ReleaseTrain.Text.Split

/-!
Image references `registry/name:tag`, the registry host they belong to, and the rule which tags
are also published as `latest`.
-/

namespace ReleaseTrain

def latestTag : String := "latest"

/-- Three runs of digits with a dot between neighbours, one `v` in front of them allowed. -/
def isProductionTag (tag : String) : Bool :=
  let cs := tag.toList
  let numbers := Text.pieces '.' ((Text.after? ['v'] cs).getD cs)
  numbers.length = 3 && numbers.all fun n ↦ !n.isEmpty && n.all Char.isDigit

/-- A registry's text does not end with a `/`. -/
structure ImageReference where
  registry : String
  name : String
  tag : String
  deriving DecidableEq, Repr, Inhabited

namespace ImageReference

/-- Trailing separators of a registry's text mean nothing. -/
def new (registry name tag : String) : ImageReference :=
  ⟨.ofList (Text.trimEnd '/' registry.toList), name, tag⟩

def isProduction (r : ImageReference) : Bool := isProductionTag r.tag

def withTag (r : ImageReference) (tag : String) : ImageReference := { r with tag := tag }

/-- What a production reference is published as besides its own tag. -/
def latestAlias (r : ImageReference) : Option ImageReference :=
  if r.isProduction then some (r.withTag latestTag) else none

end ImageReference

def withoutScheme (cs : List Char) : List Char :=
  match Text.after? "https://".toList cs with
  | some rest => rest
  | none => (Text.after? "http://".toList cs).getD cs

def firstSegment (cs : List Char) : List Char := cs.takeWhile (· ≠ '/')

def defaultHost : String := "docker.io"

/-- A first segment names a host if it holds a dot or a colon or is `localhost`; otherwise it is
a namespace of the default registry. -/
def hostOfSegment (segment : List Char) : String :=
  if segment.contains '.' || segment.contains ':' || segment = "localhost".toList then
    .ofList segment
  else defaultHost

namespace ImageReference

def registryHost (r : ImageReference) : String :=
  hostOfSegment (firstSegment (withoutScheme r.registry.toList))

def text (r : ImageReference) : String :=
  let registry := withoutScheme r.registry.toList
  if registry.isEmpty then r.name ++ ":" ++ r.tag
  else .ofList registry ++ "/" ++ r.name ++ ":" ++ r.tag

end ImageReference

example : isProductionTag "v1.2.3" = true := by decide
example : isProductionTag "1.2.3-rc" = false := by decide

end ReleaseTrain
