import ReleaseTrain.Cli
import ReleaseTrain.Rehearsal

/-!
The program: it rehearses the release that its arguments ask for, in an empty repository with tools
that succeed at once, and shows what an operator would see of it.
-/

namespace ReleaseTrain.Rehearsal

/-- Somewhere with every tool that a release may need, and nobody to ask. -/
def site : Site State where
  surroundings := surroundings [] false
  setting? name := if name = "PATH" then some "/usr/bin" else none
  terminal := {}

def repository : FileSystem :=
  let fs := ["dotnet", "docker"].foldl (fun fs tool ↦
    fs.place (Text.encode ("/usr/bin/" ++ tool)) (.file (Executable.toolFile tool) 0o755))
    Executable.standardFiles
  let fs := fs.place (Text.encode "/work/repo") .directory
  { fs with workingDirectory := (fs.directoryAt? (Text.encode "/work/repo")).getD [] }

end ReleaseTrain.Rehearsal

open ReleaseTrain in
def main (arguments : List String) : IO UInt32 := do
  let ending := Cli.run Rehearsal.site arguments Rehearsal.repository {}
  (← IO.getStdout).write ⟨ending.shown.output.toArray⟩
  (← IO.getStderr).write ⟨ending.shown.errors.toArray⟩
  return ending.code.toUInt32
