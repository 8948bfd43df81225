import Emitter.Program.Mention
import Emitter.Target.Failure
import Emitter.Target.Priority
import Emitter.Layout.Lexeme

/-!
# Operands

What printing an expression needs to know of the expressions in it: the expression itself, how
tightly its printed form binds, and that form or the fault that printing it meets. Where an operand
stands decides whether it gets parentheses.
-/

namespace Emitter

open Layout Number Program

/-- Where printing takes place: in which program, for which target, and in which class's file. -/
structure Context where
  program : Program
  target : Target
  current : Option ClassId

namespace Context

variable {α : Type}

def unsupported (cx : Context) (feature : Feature) : Result α :=
  .error (.refused (.unsupported cx.target feature))

def unmappedType (cx : Context) (ty : Ty) : Result α :=
  .error (.refused (.unmappedType cx.target (cx.program.describe ty)))

def unmappedMethod (cx : Context) (method : BuiltinMethod) : Result α :=
  .error (.refused (.unmappedBuiltin cx.target method))

def classOf (cx : Context) (id : ClassId) : Result ClassDef := lookedUp (cx.program.classOf id)

def enumOf (cx : Context) (id : EnumId) : Result EnumDef := lookedUp (cx.program.enumOf id)

/-- A field, local or parameter by the name it is printed under. -/
def localWord (cx : Context) (name : String) : Lexeme := .word (cx.target.localName name)

end Context

structure Operand where
  expr : Expr
  priority : Priority
  code : Result Code

namespace Operand

def parenthesized (o : Operand) : Result Code := o.code.map Code.parenthesized

/-- The operand where `least` is the loosest priority that needs no parentheses. -/
def atLeast (least : Priority) (o : Operand) : Result Code :=
  if o.priority < least then o.parenthesized else o.code

/-- The operand on the side of an operator that does not associate. -/
def above (bound : Priority) (o : Operand) : Result Code :=
  if o.priority ≤ bound then o.parenthesized else o.code

/-- Arguments between parentheses. -/
def arguments (args : List Operand) : Result Code := do
  return .parenthesized (.commaSeparated (← args.mapM (atLeast .argument)))

/-- The printed form starts with a sign that a prefix operator could run into. -/
def startsWithSign (o : Operand) : Bool :=
  match o.expr with
  | .unary op _ _ => op = .neg || op = .preDec || op = .preInc
  | .literal (.int n) _ => n < 0
  | _ => false

/-- A prefix operator in front of the operand, kept apart from the operand's own sign. -/
def prefixed (op : UnaryOp) (o : Operand) : Result Code := do
  let operand ← if o.startsWithSign then o.parenthesized else o.atLeast .prefixed
  return .symbol op.text :: operand

def postfixed (op : UnaryOp) (o : Operand) : Result Code := do
  return (← o.atLeast .postfixed) ++ [.symbol op.text]

/-- Two operands around an operator that associates to the left. -/
def infixed (op : BinaryOp) (left right : Operand) : Result Code := do
  return (← left.atLeast op.priority) ++ Code.operator op.text ++ (← right.above op.priority)

/-- The conditional operator. -/
def selected (cond onTrue onFalse : Operand) : Result Code := do
  return (← cond.atLeast .condOr) ++ Code.operator "?" ++ (← onTrue.atLeast .select) ++
    Code.operator ":" ++ (← onFalse.atLeast .select)

/-- An element of an array. -/
def indexed (array position : Operand) : Result Code := do
  return (← array.atLeast .postfixed) ++ .symbol "[" :: (← position.code) ++ [.symbol "]"]

end Operand

end Emitter
