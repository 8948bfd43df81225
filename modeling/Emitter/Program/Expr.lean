import Emitter.Number.Binary64
import Emitter.Program.Builtin
import Emitter.Program.Operator

/-!
# Expressions

Every expression carries its resolved type. The functions in the second half build expressions
whose types follow from their operands.
-/

namespace Emitter.Program

open Number

inductive Literal
  | int (value : Int64)
  | float (value : Binary64)
  | bool (value : Bool)
  | str (value : String)
  | null
  deriving DecidableEq

/-- What a call refers to. -/
inductive Callee
  | builtin (method : BuiltinMethod)
  | user (owner : ClassId) (name : String) (isStatic : Bool)
  deriving DecidableEq

/-- A hole of an interpolated string: the text before it and how its argument is to be shown. -/
structure Hole where
  before : String
  width : Option Int32
  format : Option Char
  precision : Option UInt32
  deriving DecidableEq

/-- The hole shows its argument in the plain way. -/
def Hole.isPlain (hole : Hole) : Bool :=
  hole.width.isNone && hole.format.isNone && hole.precision.isNone

mutual

inductive Expr
  | literal (value : Literal) (ty : Ty)
  | var (name : String) (ty : Ty)
  | this (ty : Ty)
  | const (owner : ClassId) (name : String) (ty : Ty)
  | enumValue (id : EnumId) (index : UInt64) (ty : Ty)
  | field (obj : Expr) (name : String) (ty : Ty)
  | property (obj : Expr) (accessor : BuiltinProperty) (ty : Ty)
  | call (receiver : Option Expr) (callee : Callee) (args : List Expr) (ty : Ty)
  | index (array position : Expr) (ty : Ty)
  | unary (op : UnaryOp) (operand : Expr) (ty : Ty)
  | binary (left : Expr) (op : BinaryOp) (right : Expr) (ty : Ty)
  | select (cond onTrue onFalse : Expr) (ty : Ty)
  | interpolated (parts : List Part) (suffix : String) (ty : Ty)
  | resource (name : String) (ty : Ty)

/-- A hole of an interpolated string and its argument. -/
inductive Part
  | mk (hole : Hole) (arg : Expr)

end

def Part.hole : Part → Hole
  | mk hole _ => hole

def Part.arg : Part → Expr
  | mk _ arg => arg

namespace Expr

def ty : Expr → Ty
  | literal _ ty | var _ ty | this ty | const _ _ ty | enumValue _ _ ty | field _ _ ty
  | property _ _ ty | call _ _ _ ty | index _ _ ty | unary _ _ ty | binary _ _ _ ty
  | select _ _ _ ty | interpolated _ _ ty | resource _ ty => ty

def ofInt (value : Int64) : Expr := literal (.int value) (.int .int)

def ofBool (value : Bool) : Expr := literal (.bool value) .bool

def ofString (value : String) : Expr := literal (.str value) .string

def nullLiteral : Expr := literal .null .null

def thisOf (id : ClassId) : Expr := this (.classRef id)

/-- A comparison or logical operator gives a truth value, any other the type of its left side. -/
def applyBinary (left : Expr) (op : BinaryOp) (right : Expr) : Expr :=
  binary left op right (if op.isBoolean then .bool else left.ty)

def applyUnary (op : UnaryOp) (operand : Expr) : Expr :=
  unary op operand (if op = .not then .bool else operand.ty)

def applyProperty (obj : Expr) (accessor : BuiltinProperty) : Expr :=
  property obj accessor accessor.resultType

def applyBuiltin (receiver : Option Expr) (method : BuiltinMethod) (args : List Expr) : Expr :=
  call receiver (.builtin method) args (method.resultType (args.head?.map ty))

end Expr

/-- Running the callee twice could be observed, whatever it is given. -/
def Callee.hasSideEffect : Callee → Bool
  | builtin method => method.hasSideEffect
  | user .. => true

mutual

/-- Evaluating the expression twice could be observed. -/
def Expr.hasSideEffect : Expr → Bool
  | .literal .. | .var .. | .this _ | .const .. | .enumValue .. | .resource .. => false
  | .field obj _ _ => obj.hasSideEffect
  | .property obj _ _ => obj.hasSideEffect
  | .call receiver callee args _ =>
    callee.hasSideEffect || receiverHasSideEffect receiver || anyHasSideEffect args
  | .index array position _ => array.hasSideEffect || position.hasSideEffect
  | .unary op operand _ => op.mutates || operand.hasSideEffect
  | .binary left _ right _ => left.hasSideEffect || right.hasSideEffect
  | .select cond onTrue onFalse _ =>
    cond.hasSideEffect || onTrue.hasSideEffect || onFalse.hasSideEffect
  | .interpolated parts _ _ => partsHaveSideEffect parts

def receiverHasSideEffect : Option Expr → Bool
  | none => false
  | some e => e.hasSideEffect

def anyHasSideEffect : List Expr → Bool
  | [] => false
  | e :: rest => e.hasSideEffect || anyHasSideEffect rest

def partsHaveSideEffect : List Part → Bool
  | [] => false
  | .mk _ arg :: rest => arg.hasSideEffect || partsHaveSideEffect rest

end

end Emitter.Program
