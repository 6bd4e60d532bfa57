import ReleaseTrain.World

/-!
What the operator sees of a run: everything on the standard output but failures, which go to the
standard error and are never left out.
-/

namespace ReleaseTrain

open Text (Bytes)

structure Shown where
  output : Bytes := []
  errors : Bytes := []
  deriving DecidableEq, Repr

namespace Shown

def append (a b : Shown) : Shown := ⟨a.output ++ b.output, a.errors ++ b.errors⟩

instance : Append Shown := ⟨append⟩

def onOutput (text : String) : Shown := ⟨Text.encode text, []⟩

def onErrors (text : String) : Shown := ⟨[], Text.encode text⟩

def concat (shown : List Shown) : Shown :=
  ⟨shown.flatMap Shown.output, shown.flatMap Shown.errors⟩

end Shown

structure Console where
  verbose : Bool := false
  quiet : Bool := false
  colours : Bool := false
  deriving DecidableEq, Repr

namespace Console

inductive Look
  | success
  | warning
  | failure
  | progress
  | heading
  | dim
  deriving DecidableEq, Repr

def Look.codes : Look → String
  | success => "32"
  | warning => "33"
  | failure => "31"
  | progress => "34"
  | heading => "36;1"
  | dim => "2"

def paint (c : Console) (look : Look) (text : String) : String :=
  if c.colours then "\x1b[" ++ look.codes ++ "m" ++ text ++ "\x1b[0m" else text

def loud (c : Console) (text : String) : Shown := if c.quiet then {} else .onOutput text

def showReport (c : Console) : Report → Shown
  | .heading title => c.loud ("\n" ++ c.paint .heading title ++ "\n")
  | .progress message => c.loud (c.paint .progress "→" ++ " " ++ message ++ "\n")
  | .success message => c.loud (c.paint .success "✓" ++ " " ++ message ++ "\n")
  | .warning message => c.loud (c.paint .warning "⚠" ++ " " ++ message ++ "\n")
  | .failure message => .onErrors (c.paint .failure "✗" ++ " " ++ message ++ "\n")
  | .detail message => c.loud ("    " ++ message ++ "\n")
  | .verbose message => if c.verbose then c.loud (c.paint .dim message ++ "\n") else {}

/-- A command that talks to the terminal writes there whatever the console is set to. -/
def showEvent (c : Console) : Event → Shown
  | .reported r => c.showReport r
  | .printed output => ⟨output, []⟩
  | .ran _ _ _ | .asked _ _ => {}

def showReports (c : Console) (reports : List Report) : Shown := .concat (reports.map c.showReport)

def showEvents (c : Console) (events : List Event) : Shown := .concat (events.map c.showEvent)

end Console

end ReleaseTrain
