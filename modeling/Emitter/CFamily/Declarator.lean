import Emitter.CFamily.Dialect
import Emitter.Target.Operand

/-!
# Types and declarations in C

A reference to an array is a pointer to its element type; an array that its declaration owns is an
array with its dimensions after the name. A star stands next to the name or star that follows it.
-/

namespace Emitter.CFamily

open Layout Program

/-- The type of a pointer to values of the given type. -/
def pointerTo (type : Code) : Code :=
  if type.endsInStar then type ++ [.symbol "*"] else type ++ [.gap, .symbol "*"]

/-- The type with a space after it, unless it ends in a star. -/
def beforeName (type : Code) : Code := if type.endsInStar then type else type ++ [.gap]

/-- The spelling of a type. -/
def typeCode (cx : Context) (d : Dialect) : Ty → Result Code
  | .void => .ok [.word "void"]
  | .bool => .ok [.supplied "bool" (.header .stdbool)]
  | .int kind => .ok [d.intType kind]
  | .float .float => .ok [.word "float"]
  | .float .double => .ok [.word "double"]
  | .string => .ok d.stringType
  | .enumeration _ => .ok [.word "int"]
  | .null => cx.unmappedType .null
  | .classStorage id => do return [.word (← cx.classOf id).name]
  | .classRef id => do return [.word (← cx.classOf id).name, .gap, .symbol "*"]
  | .array element _ _ => do return pointerTo (← typeCode cx d element)

/-- The lengths of the storage arrays around an element type, the outermost first. -/
def dimensions (cx : Context) : Ty → Result (List UInt32 × Ty)
  | .array element true (some length) => do
    let (lengths, base) ← dimensions cx element
    return (length :: lengths, base)
  | .array _ true none => cx.unsupported .dynamicArrayStorage
  | base => .ok ([], base)

/-- The declaration of a name. -/
def declaration (cx : Context) (d : Dialect) (ty : Ty) (name : Lexeme) : Result Code := do
  let (lengths, base) ← dimensions cx ty
  let type ← typeCode cx d base
  let dims := lengths.flatMap fun n => [.symbol "[", .number (toString n.toNat), .symbol "]"]
  return beforeName type ++ name :: dims

/-- The name of a method as a function. -/
def functionName (owner name : String) : String := owner ++ "_" ++ name

/-- The name of the function that constructs instances of a class. -/
def constructName (owner : String) : String := functionName owner "Construct"

end Emitter.CFamily
