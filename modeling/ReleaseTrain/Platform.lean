import ReleaseTrain.Error
import ReleaseTrain.Report

/-!
The platforms an agent is published for, the operating system that does it, and how a selector
names the platforms of one run.
-/

namespace ReleaseTrain

inductive Host
  | linux
  | macos
  | windows
  deriving DecidableEq, Repr

namespace Host

/-- The system this library is built for. -/
def current : Host := linux

def id : Host → String
  | linux => "linux"
  | macos => "macos"
  | windows => "windows"

end Host

inductive Platform
  | linuxX64
  | winX64
  | winX86
  | osxX64
  | osxArm64
  deriving DecidableEq, Repr, Inhabited

namespace Platform

def all : List Platform := [linuxX64, winX64, winX86, osxX64, osxArm64]

def id : Platform → String
  | linuxX64 => "linux-x64"
  | winX64 => "win-x64"
  | winX86 => "win-x86"
  | osxX64 => "osx-x64"
  | osxArm64 => "osx-arm64"

def displayName : Platform → String
  | linuxX64 => "Linux x64"
  | winX64 => "Windows x64"
  | winX86 => "Windows x86"
  | osxX64 => "macOS x64"
  | osxArm64 => "macOS ARM64"

def binaryExtension : Platform → String
  | winX64 | winX86 => ".exe"
  | _ => ""

def isMac : Platform → Bool
  | osxX64 | osxArm64 => true
  | _ => false

def binaryName (p : Platform) (agentName : String) : String := agentName ++ p.binaryExtension

def text (p : Platform) : String := s!"{p.displayName} ({p.id})"

def ofId? (id : String) : Option Platform := all.find? (·.id = id)

/-- Whether the host can publish the platform: one for macOS only on macOS. -/
def buildableOn (host : Host) (p : Platform) : Bool := !p.isMac || host = .macos

end Platform

def everyPlatform : String := "all"

namespace Platform

def validSelectors : String := Text.join ", " (all.map id ++ [everyPlatform])

def unknown (selector : String) : ReleaseError := .unknownPlatform selector validSelectors

def checkSelector (selector : String) : Except ReleaseError Unit :=
  if selector = everyPlatform ∨ (ofId? selector).isSome then .ok () else .error (unknown selector)

def resolve (selector : String) (host : Host) : Except ReleaseError (List Platform) :=
  if selector = everyPlatform then .ok (all.filter (buildableOn host))
  else match ofId? selector with
    | some p => .ok [p]
    | none => .error (unknown selector)

/-- What the operator is warned of when a selector meets a host that cannot publish all of it. -/
def hostWarnings (selector : String) (host : Host) : List Report :=
  if selector = everyPlatform then
    match all.filter (!buildableOn host ·) with
    | [] => []
    | skipped =>
      [.warning ("Skipping " ++ Text.join ", " (skipped.map id) ++
        " - macOS targets can only be built on a macOS host")]
  else
    match ofId? selector with
    | none => []
    | some p =>
      if p.buildableOn host then []
      else [.warning (s!"{p.text} requested on a non-macOS host; the publish step is expected " ++
        "to fail")]

end Platform

end ReleaseTrain
