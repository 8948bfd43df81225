import Emitter.CFamily.Declarator
import Emitter.CFamily.Printf
import Emitter.Target.Constant

/-!
# C expressions

How the parts of an expression are put together in the C family. Methods become functions that
take the instance as their first argument, and built-ins become library functions, casts or
indexing.
-/

namespace Emitter.CFamily

open Layout Program Text

/-- The name of a constant at file scope. -/
def constName (owner : ClassDef) (emitted : String) : String :=
  owner.name ++ "_" ++ upperSnakeCase emitted

/-- The name of a resource's table: every character that no identifier may hold becomes an
underscore. -/
def resourceName (name : String) : String :=
  "CiResource_" ++ String.ofList (name.toList.map fun c => if c.isAlphanum then c else '_')

def constant (cx : Context) (owner : ClassId) (name : String) : Result Code := do
  let c ← cx.classOf owner
  return [.word (constName c (((c.findConst name).map ConstDef.emittedName).getD name))]

/-- A field, through a pointer or of an instance in place. -/
def field (cx : Context) (obj : Operand) (name : String) : Result Code := do
  let arrow :=
    match obj.expr.ty with
    | .classRef _ => "->"
    | _ => "."
  return (← obj.atLeast .postfixed) ++ [.symbol arrow, cx.localWord name]

/-- A cast of the operand to the given type. -/
def cast (type : Code) (o : Operand) : Result Code := do
  return Code.parenthesized type ++ .gap :: (← o.atLeast .prefixed)

/-- The length of a string, by the library or by a helper. -/
def stringLength (d : Dialect) (s : Operand) : Result Code := do
  match d with
  | .standard =>
    return Code.parenthesized [.word "int"] ++ .gap :: .supplied "strlen" (.header .string) ::
      (← s.parenthesized)
  | .openCL => return .supplied "strlen" (.helper .stringLength) :: (← s.parenthesized)

def property (d : Dialect) (accessor : BuiltinProperty) (obj : Operand) : Result Code :=
  match accessor with
  | .signExtendByte => cast [d.intType .sbyte] obj
  | .lowByte => cast [d.intType .byte] obj
  | .stringLength => stringLength d obj

/-- Strings are compared by their characters where one side is a string and the other one is not
the null literal. -/
def comparesStrings (left right : Ty) : Bool :=
  (left.isString && right ≠ .null) || (right.isString && left ≠ .null)

/-- Equality of two strings, or its opposite. -/
def stringEquality (d : Dialect) (negated : Bool) (left right : Operand) : Result Code := do
  let args := Code.parenthesized (Code.commaSeparated [← left.code, ← right.code])
  match d with
  | .standard =>
    return .supplied "strcmp" (.header .string) :: args ++
      Code.operator (if negated then "!=" else "==") ++ [.number "0"]
  | .openCL =>
    return (if negated then [.symbol "!"] else []) ++
      .supplied "streq" (.helper .stringEquality) :: args

def binary (d : Dialect) (op : BinaryOp) (left right : Operand) : Result Code :=
  if (op = .eq ∨ op = .notEq) ∧ comparesStrings left.expr.ty right.expr.ty then
    stringEquality d (op = .notEq) left right
  else left.infixed op right

/-- The size of the first element of an array. -/
def elementSize (array : Operand) : Result Code := do
  return .word "sizeof" :: Code.parenthesized
    ((← array.atLeast .postfixed) ++ [.symbol "[", .number "0", .symbol "]"])

/-- A position in an array as a pointer. -/
def offset (array position : Operand) : Result Code := array.infixed .add position

/-- Copying between arrays and clearing one. The length of an array that is cleared has to be part
of its type, since a parameter decays to a pointer. -/
def arrayMethod (cx : Context) (d : Dialect) (array : Operand) (m : BuiltinMethod)
    (args : List Operand) : Result Code := do
  match d, m, args with
  | .standard, .arrayCopyTo, [start, target, targetStart, length] =>
    let destination ← offset target targetStart
    let source ← offset array start
    let count ← length.atLeast .mul
    let size ← elementSize array
    return .supplied "memmove" (.header .string) :: Code.parenthesized
      (Code.commaSeparated [destination, source, count ++ Code.operator "*" ++ size])
  | .standard, .arrayClear, [] =>
    match array.expr.ty with
    | .array _ true (some length) =>
      let target ← array.code
      let size ← elementSize array
      return .supplied "memset" (.header .string) :: Code.parenthesized
        (Code.commaSeparated [target, [.number "0"],
          .number (toString length.toNat) :: Code.operator "*" ++ size])
    | _ => cx.unsupported .clearOfUnsizedArray
  | _, m, _ => cx.unmappedMethod m

/-- A built-in method other than the two that print. -/
def builtinCall (cx : Context) (d : Dialect) (receiver : Option Operand) (m : BuiltinMethod)
    (args : List Operand) : Result Code := do
  match m, receiver, args with
  | .mulDiv, some obj, [factor, divisor] =>
    let product ← cast [d.intType .long] obj
    return Code.parenthesized [.word "int"] ++ .gap :: Code.parenthesized
      (product ++ Code.operator "*" ++ (← factor.atLeast .mul) ++ Code.operator "/" ++
        (← divisor.above .mul))
  | .charAt, some obj, [position] => obj.indexed position
  | .substring, _, _ => cx.unmappedMethod .substring
  | .arrayToString, _, _ => cx.unmappedMethod .arrayToString
  | .arrayCopyTo, some obj, args => arrayMethod cx d obj .arrayCopyTo args
  | .arrayClear, some obj, args => arrayMethod cx d obj .arrayClear args
  | .mathAbs, none, [value] =>
    let name : Lexeme :=
      if value.expr.ty.isFloating then .supplied "fabs" (.header .math)
      else .supplied "abs" (.header .stdlib)
    return name :: (← Operand.arguments [value])
  | .mathSqrt, none, [value] =>
    return .supplied "sqrt" (.header .math) :: (← Operand.arguments [value])
  | m, _, args => cx.unsupported (.argumentCount m args.length)

/-- The two methods that print take no receiver. -/
def printCall (cx : Context) (d : Dialect) (receiver : Option Operand) (m : BuiltinMethod)
    (lineEnd : String) (args : List Shown) : Result Code :=
  match receiver with
  | none => print cx d lineEnd args
  | some _ => cx.unsupported (.argumentCount m args.length)

/-- The instance a method runs on: a pointer as it is, an instance in place by its address, and the
current instance where no receiver is given. -/
def instanceArgument : Option Operand → Result Code
  | none => .ok [.word "self"]
  | some obj =>
    match obj.expr.ty with
    | .classStorage _ => do return .symbol "&" :: (← obj.atLeast .prefixed)
    | _ => obj.code

def userCall (cx : Context) (receiver : Option Operand) (owner : ClassId) (name : String)
    (isStatic : Bool) (args : List Operand) : Result Code := do
  let c ← cx.classOf owner
  let self ← if isStatic then pure [] else do pure [← instanceArgument receiver]
  let rest ← args.mapM (Operand.atLeast .argument)
  return .word (functionName c.name name) ::
    Code.parenthesized (Code.commaSeparated (self ++ rest))

def resource (cx : Context) (name : String) : Result Code :=
  if cx.program.resources.contains name then .ok [.word (resourceName name)]
  else cx.unsupported (.missingResource name)

end Emitter.CFamily
