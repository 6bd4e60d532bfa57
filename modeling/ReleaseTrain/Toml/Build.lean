import ReleaseTrain.Toml.Failure
import ReleaseTrain.Toml.Value

/-!
Tables under construction. A document may come back to a table through headers and through dotted
keys, but never by both, and never to what was written as one value.
-/

namespace ReleaseTrain.Toml

/-- How a table came to be: named by a header, passed on the way to a deeper header, or passed on
the way to a deeper key. -/
inductive Origin
  | header
  | implied
  | dotted
  deriving DecidableEq, Repr

inductive Node
  | leaf (value : Value)
  | table (origin : Origin) (entries : List (String × Node))
  | tables (items : List (List (String × Node)))
  deriving Inhabited

abbrev Entries := List (String × Node)

namespace Entries

def get? (entries : Entries) (key : String) : Option Node := List.lookup key entries

def set (entries : Entries) (key : String) (node : Node) : Entries :=
  if (entries.get? key).isSome then
    entries.map fun (k, n) ↦ if k = key then (k, node) else (k, n)
  else entries ++ [(key, node)]

abbrev Change := Origin → Entries → Except Failure Entries

def changeAt (dotted : Bool) (change : Change) : List String → Origin → Entries → Except Failure Entries
  | [], origin, entries => change origin entries
  | key :: path, _, entries =>
    match entries.get? key with
    | none => do
      let origin := if dotted then .dotted else .implied
      return entries.set key (.table origin (← changeAt dotted change path origin []))
    | some (.table origin inner) => do
      if dotted && origin = .header then throw (.duplicateKey key)
      return entries.set key (.table origin (← changeAt dotted change path origin inner))
    | some (.tables items) => do
      let last ← changeAt dotted change path .header (items.getLast?.getD [])
      return entries.set key (.tables (items.dropLast ++ [last]))
    | some (.leaf _) => throw (.duplicateKey key)

/-- A header may name a table only once, but it may come after headers of deeper tables. -/
def openTable (key : String) : Change := fun _ entries ↦
  match entries.get? key with
  | none => .ok (entries.set key (.table .header []))
  | some (.table .implied inner) => .ok (entries.set key (.table .header inner))
  | some _ => .error (.duplicateKey key)

def openElement (key : String) : Change := fun _ entries ↦
  match entries.get? key with
  | none => .ok (entries.set key (.tables [[]]))
  | some (.tables items) => .ok (entries.set key (.tables (items ++ [[]])))
  | some _ => .error (.duplicateKey key)

/-- A dotted key adds only to tables that dotted keys made. -/
def assign (path : List String) (key : String) (value : Value) : Change := fun origin entries ↦
  changeAt true
    (fun origin entries ↦
      if (origin = .dotted) = path.isEmpty ∨ (entries.get? key).isSome then
        .error (.duplicateKey key)
      else .ok (entries.set key (.leaf value)))
    path origin entries

end Entries

mutual

def Node.toValue : Node → Value
  | .leaf value => value
  | .table _ entries => .table (toTable entries)
  | .tables items => .array (toTables items)

def toTable : List (String × Node) → Table
  | [] => []
  | (key, node) :: entries => (key, node.toValue) :: toTable entries

def toTables : List (List (String × Node)) → List Value
  | [] => []
  | entries :: items => .table (toTable entries) :: toTables items

end

end ReleaseTrain.Toml
