/-!
What an operator is told while a release runs.
-/

namespace ReleaseTrain

inductive Report
  | heading (title : String)
  | progress (message : String)
  | success (message : String)
  | warning (message : String)
  | failure (message : String)
  /-- Output of a tool, or a detail of what was announced before. -/
  | detail (message : String)
  | verbose (message : String)
  deriving DecidableEq, Repr

end ReleaseTrain
