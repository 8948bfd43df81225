/-!
# TOML values

Settings files are tables of named values. Floats and moments in time are checked when they are
read, but no setting is one, so only their kind is kept.
-/

namespace Emitter

inductive Toml
  | string (text : String)
  | integer (value : Int)
  | boolean (value : Bool)
  | float
  | moment
  | array (items : List Toml)
  | table (entries : List (String × Toml))

end Emitter
