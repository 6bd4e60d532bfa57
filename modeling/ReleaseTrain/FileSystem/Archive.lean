import ReleaseTrain.FileSystem.Operations
import ReleaseTrain.Text.Split

/-!
The archive of a directory: one entry for each directory and each file below it. An entry comes
right after the directory that it is in and what is before it there by name, so the order depends
on nothing but the names.
-/

namespace ReleaseTrain

open Text (Bytes)

namespace FileSystem

/-- What lies below a directory, by its names from there, in the order of the bytes of the names. -/
def contents (fs : FileSystem) (l : Location) : List (Location × Node) :=
  ((fs.below l).map fun (m, node) ↦ (m.drop l.length, node)).mergeSort fun a b ↦ a.1 ≤ b.1

def entryName (l : Location) : String := Text.join "/" (l.map Text.lossy)

/-- A directory's name gets a separator at its end unless it has one. -/
def directoryName (name : String) : String :=
  match name.toList.getLast? with
  | some '/' | some '\\' => name
  | _ => name ++ "/"

/-- Links have no entry; of a file's mode only the rights are kept. -/
def archiveEntry? : Location × Node → Option ArchiveEntry
  | (l, .directory) => some (.directory (directoryName (entryName l)))
  | (l, .file content mode) => some (.file (entryName l) (mode % 0o1000) content.toBytes)
  | (_, .link _) => none

def archiveEntries (fs : FileSystem) (l : Location) : List ArchiveEntry :=
  (fs.contents l).filterMap archiveEntry?

end FileSystem

/-- The entries up to the first one whose name came before, and that name if there is one. -/
def distinctEntries (seen : List String) : List ArchiveEntry → List ArchiveEntry × Option String
  | [] => ([], none)
  | e :: es =>
    if seen.contains e.name then ([], some e.name)
    else
      let (kept, again) := distinctEntries (e.name :: seen) es
      (e :: kept, again)

end ReleaseTrain
