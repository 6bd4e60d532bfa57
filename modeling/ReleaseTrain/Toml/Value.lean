/-!
The values of a TOML document. Numbers, booleans and dates are told apart from the rest and not
read further.
-/

namespace ReleaseTrain.Toml

inductive ScalarKind
  | boolean
  | integer
  | float
  | date
  deriving DecidableEq, Repr

inductive Value
  | string (text : String)
  | scalar (kind : ScalarKind)
  | array (items : List Value)
  | table (entries : List (String × Value))
  deriving Repr, Inhabited

/-- The keys of a table are distinct. -/
abbrev Table := List (String × Value)

end ReleaseTrain.Toml
