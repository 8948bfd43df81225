import Emitter.Target.Constant

/-!
# ActionScript expressions

How the parts of an expression are put together in ActionScript. Integer division goes through
`int(…)`, because `/` gives a fraction there, and built-ins without a counterpart become calls of
the helper class `Ci`.
-/

namespace Emitter.ActionScript

open Layout Program Text

/-- The class's name and a dot, except inside the class itself. -/
def classPrefix (cx : Context) (id : ClassId) : Result Code :=
  if cx.current = some id then .ok []
  else do return [.word (← cx.classOf id).name, .symbol "."]

/-- A constant that is not seen from outside is replaced by its value, since it does not exist at
run time; any other is referred to by name. -/
def constant (cx : Context) (owner : ClassId) (name : String) : Result Code := do
  let c ← cx.classOf owner
  match c.consts.find? fun k => k.name = name && k.visibility ≠ .exported with
  | some k =>
    let value ← cx.constValue k.value
    return if k.value.isBelowZero then .parenthesized value else value
  | none =>
    let emitted := ((c.findConst name).map ConstDef.emittedName).getD name
    return (← classPrefix cx owner) ++ [.word (upperSnakeCase emitted)]

def field (cx : Context) (obj : Operand) (name : String) : Result Code := do
  return (← obj.atLeast .postfixed) ++ [.symbol ".", cx.localWord name]

/-- Integer division: the quotient's fraction is cut off. -/
def quotient (left right : Operand) : Result Code := do
  return [.word "int", .symbol "("] ++ (← left.infixed .div right) ++ [.symbol ")"]

def binary (op : BinaryOp) (ty : Ty) (left right : Operand) : Result Code :=
  if op = .div ∧ ty.isInteger then quotient left right else left.infixed op right

def property (accessor : BuiltinProperty) (obj : Operand) : Result Code := do
  match accessor with
  | .signExtendByte =>
    return .symbol "(" :: (← obj.atLeast .xor) ++ Code.operator "^" ++
      [.number "128", .symbol ")"] ++ Code.operator "-" ++ [.number "128"]
  | .lowByte => return (← obj.atLeast .and) ++ Code.operator "&" ++ [.number "0xff"]
  | .stringLength => return (← obj.atLeast .postfixed) ++ [.symbol ".", .word "length"]

/-- A call of a function of the helper class. -/
def helperCall (helper : Helper) (name : String) (args : List Operand) : Result Code := do
  return [.word "Ci", .symbol ".", .supplied name (.helper helper)] ++ (← Operand.arguments args)

def mathCall (name : String) (args : List Operand) : Result Code := do
  return [.word "Math", .symbol ".", .word name] ++ (← Operand.arguments args)

/-- The end of a substring is given by position; a start with side effects must not be printed
twice, so that case goes through the helper class. -/
def substring (obj start length : Operand) : Result Code := do
  if start.expr.hasSideEffect then helperCall .substring "substring" [obj, start, length]
  else
    let receiver ← obj.atLeast .postfixed
    let first ← start.atLeast .argument
    let last ← start.infixed .add length
    return receiver ++ [.symbol ".", .word "substring"] ++
      Code.parenthesized (Code.commaSeparated [first, last])

/-- A built-in method of a receiver. -/
def method (cx : Context) (obj : Operand) : BuiltinMethod → List Operand → Result Code
  | .mulDiv, [factor, divisor] => do
    return [.word "int", .symbol "("] ++ (← obj.atLeast .mul) ++ Code.operator "*" ++
      (← factor.atLeast .mul) ++ Code.operator "/" ++ (← divisor.above .mul) ++ [.symbol ")"]
  | .charAt, [position] => do
    return (← obj.atLeast .postfixed) ++ [.symbol ".", .word "charCodeAt"] ++
      Code.parenthesized (← position.code)
  | .substring, [start, length] => substring obj start length
  | .arrayCopyTo, [start, target, targetStart, length] =>
    helperCall .copyArray "copyArray" [obj, start, target, targetStart, length]
  | .arrayToString, [start, length] =>
    helperCall .bytesToString "bytesToString" [obj, start, length]
  | .arrayClear, [] => do
    return [.word "Ci", .symbol ".", .supplied "clearArray" (.helper .clearArray)] ++
      (← obj.parenthesized)
  | m, args => cx.unsupported (.argumentCount m args.length)

def builtinCall (cx : Context) (receiver : Option Operand) (m : BuiltinMethod)
    (args : List Operand) : Result Code :=
  match receiver, m with
  | _, .consoleWrite => cx.unmappedMethod .consoleWrite
  | some obj, m => method cx obj m args
  | none, .consoleWriteLine => do
    let shown ← match args with
      | [] => pure [.quoted ""]
      | arg :: _ => arg.code
    return .word "trace" :: Code.parenthesized shown
  | none, .mathAbs => mathCall "abs" args
  | none, .mathSqrt => mathCall "sqrt" args
  | none, m => cx.unsupported (.receiver m)

def userCall (cx : Context) (receiver : Option Operand) (owner : ClassId) (name : String)
    (isStatic : Bool) (args : List Operand) : Result Code := do
  let qualifier ←
    match receiver with
    | some obj => do pure ((← obj.atLeast .postfixed) ++ [.symbol "."])
    | none => if isStatic then classPrefix cx owner else pure []
  return qualifier ++ cx.localWord name :: (← Operand.arguments args)

/-- The holes after those already printed, each with the text before it. The chain always starts
with a text, so that `+` joins texts from the first operand on. -/
def interpolatedTail (cx : Context) (first : Bool) : List (Hole × Operand) → Result Code
  | [] => .ok []
  | (hole, arg) :: rest => do
    if !hole.isPlain then cx.unsupported .formattedInterpolation
    else
      let before : Code :=
        if first then [.quoted hole.before]
        else if hole.before ≠ "" then Code.operator "+" ++ [.quoted hole.before]
        else []
      let shown ← arg.above .add
      return before ++ Code.operator "+" ++ shown ++ (← interpolatedTail cx false rest)

/-- An interpolated string as a sum of texts and arguments. -/
def interpolated (cx : Context) (holes : List (Hole × Operand)) (suffix : String) :
    Result Code := do
  let chain ← interpolatedTail cx true holes
  if holes.isEmpty then return [.quoted suffix]
  else if suffix ≠ "" then return chain ++ Code.operator "+" ++ [.quoted suffix]
  else return chain

end Emitter.ActionScript
