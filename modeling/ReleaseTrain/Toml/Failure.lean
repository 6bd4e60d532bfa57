/-!
Why a text is not the TOML document that is expected.
-/

namespace ReleaseTrain.Toml

inductive Failure
  | malformed (expected : String)
  | duplicateKey (key : String)
  | tooDeep
  | unknownField (name : String)
  | invalidType (expected : String)
  deriving DecidableEq, Repr

def Failure.message : Failure → String
  | malformed expected => s!"expected {expected}"
  | duplicateKey key => s!"duplicate key {key}"
  | tooDeep => "nested too deeply"
  | unknownField name => s!"unknown field {name}"
  | invalidType expected => s!"invalid type, expected {expected}"

end ReleaseTrain.Toml
