import ReleaseTrain.FileSystem.Place
import ReleaseTrain.World

/-!
Rehearsing a run: the tools follow a script instead of being started, and the operator's answers
are laid down beforehand.
-/

namespace ReleaseTrain

open Text (Bytes)

namespace Rehearsal

/-- A file that a publish leaves, named from the output directory. The platform's identifier may
stand for a mark in it. -/
structure Product where
  path : Bytes
  item : Item
  deriving Repr

/-- What happens when a command is run that the rule is for. -/
structure Rule where
  /-- Texts that all stand in the command. -/
  needed : List String := []
  excluded : List String := []
  /-- How often the rule applies at most. -/
  times : Option Nat := none
  lines : List String := []
  failure : Option String := none
  code : Option Int := some 0
  /-- What a publish leaves, given the platform's identifier, if not the usual. -/
  products : Option (String → List Product) := none
  makesDirectory : Bool := true

structure State where
  uses : List Nat := []
  answers : List Bool := []
  deriving Repr

def Rule.matches (r : Rule) (command : Invocation) (used : Nat) : Bool :=
  let text := command.text.toList
  r.needed.all (fun s ↦ Text.occursIn s.toList text) &&
    r.excluded.all (fun s ↦ !Text.occursIn s.toList text) &&
    r.times.all (used < ·)

def choose (command : Invocation) : List Rule → List Nat → Option Rule × List Nat
  | [], uses => (none, uses)
  | r :: rs, uses =>
    let used := uses.head?.getD 0
    if r.matches command used then (some r, (used + 1) :: uses.tail)
    else
      let (chosen, rest) := choose command rs uses.tail
      (chosen, used :: rest)

def usualProducts (command : Invocation) (platform : String) : List Product :=
  let file (path text : String) : Product :=
    ⟨Text.encode path, .file (Text.encode text) FileSystem.defaultMode⟩
  let isAgent := command.arguments.any fun a ↦
    "-p:CompanionArchivePath=".toList.isPrefixOf a.toList
  if isAgent then
    let windows := "win".toList.isPrefixOf platform.toList
    [file (if windows then "agent.exe" else "agent") s!"agent binary for {platform}"]
  else [file "Desktop.dll" "companion", file "wwwroot/index.html" "<html/>"]

def leave (command : Invocation) (rule : Rule) (fs : FileSystem) : FileSystem :=
  let output := Text.encode ((command.flagValue? "-o").getD "")
  let platform := (command.flagValue? "-r").getD ""
  let products := match rule.products with
    | some products => products platform
    | none => usualProducts command platform
  let fs := if rule.makesDirectory then fs.place output .directory else fs
  products.foldl
    (fun fs p ↦ fs.place (output ++ FileSystem.separator :: p.path) p.item) fs

def execute (rules : List Rule) (_ : Mode) (command : Invocation) (fs : FileSystem)
    (state : State) : Execution State :=
  let (chosen, uses) := choose command rules state.uses
  let rule := chosen.getD {}
  let state := { state with uses := uses }
  let reports := rule.lines.map Report.detail
  match rule.failure with
  | some reason => ⟨.error (.executionFailed command.text reason), reports, fs, state, []⟩
  | none =>
    let outcome : Outcome := ⟨rule.code⟩
    let publishes := command.program = "dotnet" && (outcome.success || rule.products.isSome)
    ⟨.ok outcome, reports, if publishes then leave command rule fs else fs, state, []⟩

/-- The next answer that was laid down; a no when there is none left or nobody to give it. -/
def answer (interactive : Bool) (_ : String) (state : State) : Bool × State :=
  if interactive then
    match state.answers with
    | a :: answers => (a, { state with answers := answers })
    | [] => (false, state)
  else (false, state)

def surroundings (rules : List Rule) (interactive : Bool) : Surroundings State where
  execute := execute rules
  interactive := interactive
  answer := answer interactive

end Rehearsal

end ReleaseTrain
