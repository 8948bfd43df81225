import Emitter.Target.Emit
import Emitter.Target.Expression

/-!
# Declarations in ActionScript

Types, and the initializers that storage types imply. Every class is its own type; arrays of bytes
are byte arrays and all other arrays are untyped.
-/

namespace Emitter.ActionScript

open Layout Program

/-- The spelling of a type. The element type of an array has to have a spelling too. -/
def typeCode (cx : Context) : Ty → Result Code
  | .void => .ok [.word "void"]
  | .bool => .ok [.word "Boolean"]
  | .int .long => cx.unmappedType (.int .long)
  | .int _ | .enumeration _ => .ok [.word "int"]
  | .float _ => .ok [.word "Number"]
  | .string => .ok [.word "String"]
  | .null => cx.unmappedType .null
  | .array element storage length => do
    let _ ← typeCode cx element
    return [.word (if (Ty.array element storage length).isByteArray then "ByteArray" else "Array")]
  | .classStorage id | .classRef id => do return [.word (← cx.classOf id).name]

/-- A name with its type after a colon. -/
def typed (cx : Context) (name : String) (ty : Ty) : Result Code := do
  return cx.localWord name :: Code.operator ":" ++ (← typeCode cx ty)

/-- The value that a declaration of storage type constructs. -/
def impliedInitializer (cx : Context) : Ty → Result (Option Code)
  | .classStorage id => do
    return some [.word "new", .gap, .word (← cx.classOf id).name, .symbol "(", .symbol ")"]
  | .array element true length =>
    let size : Code :=
      match length with
      | some n => [.number (toString n.toNat)]
      | none => []
    return some <|
      if element = .int .byte then [.word "new", .gap, .word "ByteArray", .symbol "(", .symbol ")"]
      else [.word "new", .gap, .word "Array"] ++ Code.parenthesized size
  | _ => return none

/-- The one initializer of a declaration: the implied one, else the explicit one. -/
def initializer (cx : Context) (name : String) (ty : Ty) (value : Option Expr) : Emit Unit := do
  match ← (impliedInitializer cx ty : Result (Option Code)) with
  | some implied =>
    Emit.put (Code.operator "=" ++ implied)
    if value.isSome then Emit.note (.initializerDropped cx.target name)
  | none =>
    match value with
    | some e => Emit.put (Code.operator "=" ++ (← (cx.code e : Result Code)))
    | none => pure ()

/-- A local variable, without the semicolon. -/
def declareLocal (cx : Context) (decl : VarDecl) : Emit Unit := do
  Emit.put ([.word "var", .gap] ++ (← (typed cx decl.name decl.ty : Result Code)))
  initializer cx decl.name decl.ty decl.value

/-- An assignment, without the semicolon. Integer division in place would leave a fraction behind,
so the quotient is assigned instead; an element whose place must not be evaluated twice is divided
by a helper. -/
def assign (cx : Context) (target : Expr) (op : AssignOp) (value : Expr) : Result Code := do
  if op = .div ∧ target.ty.isInteger then
    if !target.hasSideEffect then
      let place ← cx.code target
      return place ++ Code.operator "=" ++ (← quotient (cx.operand target) (cx.operand value))
    else
      match target with
      | .index array position _ =>
        helperCall .divideElement "divideElement"
          [cx.operand array, cx.operand position, cx.operand value]
      | _ => cx.unsupported .divisionOfEffectfulTarget
  else
    return (← cx.code target) ++ Code.operator op.text ++ (← cx.code value)

end Emitter.ActionScript
