import Emitter.ActionScript.Lowering
import Emitter.CFamily.Lowering

/-!
# Printing expressions

The printed form of an expression, from the forms of the expressions in it.
-/

namespace Emitter.Context

open Layout Program

/-- The printed form of a binary operation. -/
def binary (cx : Context) (op : BinaryOp) (ty : Ty) (left right : Operand) : Result Code :=
  match cx.target with
  | .actionScript => ActionScript.binary op ty left right
  | .cFamily d => CFamily.binary d op left right

def unary (op : UnaryOp) (operand : Operand) : Result Code :=
  if op.isPostfix then operand.postfixed op else operand.prefixed op

def field (cx : Context) (obj : Operand) (name : String) : Result Code :=
  match cx.target with
  | .actionScript => ActionScript.field cx obj name
  | .cFamily _ => CFamily.field cx obj name

def property (cx : Context) (accessor : BuiltinProperty) (obj : Operand) : Result Code :=
  match cx.target with
  | .actionScript => ActionScript.property accessor obj
  | .cFamily d => CFamily.property d accessor obj

def userCall (cx : Context) (receiver : Option Operand) (owner : ClassId) (name : String)
    (isStatic : Bool) (args : List Operand) : Result Code :=
  match cx.target with
  | .actionScript => ActionScript.userCall cx receiver owner name isStatic args
  | .cFamily _ => CFamily.userCall cx receiver owner name isStatic args

def this (cx : Context) : Code :=
  match cx.target with
  | .actionScript => [.word "this"]
  | .cFamily _ => [.word "self"]

def constant (cx : Context) (owner : ClassId) (name : String) : Result Code :=
  match cx.target with
  | .actionScript => ActionScript.constant cx owner name
  | .cFamily _ => CFamily.constant cx owner name

def resource (cx : Context) (name : String) : Result Code :=
  match cx.target with
  | .actionScript => cx.unsupported (.resource name)
  | .cFamily _ => CFamily.resource cx name

mutual

/-- The printed form of an expression, without parentheses around it. -/
def code (cx : Context) : Expr → Result Code
  | .literal value _ => cx.literal value
  | .var name _ => .ok [cx.localWord name]
  | .this _ => .ok cx.this
  | .const owner name _ => cx.constant owner name
  | .enumValue id index _ => cx.enumValue id index
  | .field obj name _ => cx.field ⟨obj, cx.target.priority obj, code cx obj⟩ name
  | .property obj accessor _ => cx.property accessor ⟨obj, cx.target.priority obj, code cx obj⟩
  | .call receiver (.user owner name isStatic) args _ =>
    cx.userCall (receiverOperand cx receiver) owner name isStatic (operands cx args)
  | .call receiver (.builtin m) args _ =>
    match cx.target, m with
    | .actionScript, m =>
      ActionScript.builtinCall cx (receiverOperand cx receiver) m (operands cx args)
    | .cFamily d, .consoleWrite =>
      CFamily.printCall cx d (receiverOperand cx receiver) .consoleWrite "" (shown cx args)
    | .cFamily d, .consoleWriteLine =>
      CFamily.printCall cx d (receiverOperand cx receiver) .consoleWriteLine "\n" (shown cx args)
    | .cFamily d, m =>
      CFamily.builtinCall cx d (receiverOperand cx receiver) m (operands cx args)
  | .index array position _ =>
    Operand.indexed ⟨array, cx.target.priority array, code cx array⟩
      ⟨position, cx.target.priority position, code cx position⟩
  | .unary op operand _ => unary op ⟨operand, cx.target.priority operand, code cx operand⟩
  | .binary left op right ty =>
    cx.binary op ty ⟨left, cx.target.priority left, code cx left⟩
      ⟨right, cx.target.priority right, code cx right⟩
  | .select cond onTrue onFalse _ =>
    Operand.selected ⟨cond, cx.target.priority cond, code cx cond⟩
      ⟨onTrue, cx.target.priority onTrue, code cx onTrue⟩
      ⟨onFalse, cx.target.priority onFalse, code cx onFalse⟩
  | .interpolated parts suffix _ =>
    match cx.target with
    | .actionScript => ActionScript.interpolated cx (holes cx parts) suffix
    | .cFamily d => cx.unsupported (.interpolation d)
  | .resource name _ => cx.resource name

def receiverOperand (cx : Context) : Option Expr → Option Operand
  | none => none
  | some e => some ⟨e, cx.target.priority e, code cx e⟩

def operands (cx : Context) : List Expr → List Operand
  | [] => []
  | e :: rest => ⟨e, cx.target.priority e, code cx e⟩ :: operands cx rest

def holes (cx : Context) : List Part → List (Hole × Operand)
  | [] => []
  | .mk hole e :: rest => (hole, ⟨e, cx.target.priority e, code cx e⟩) :: holes cx rest

/-- The arguments of a call that prints, interpolated strings by their holes. -/
def shown (cx : Context) : List Expr → List CFamily.Shown
  | [] => []
  | .interpolated parts suffix _ :: rest =>
    .interpolated (holes cx parts) suffix :: shown cx rest
  | e :: rest => .value ⟨e, cx.target.priority e, code cx e⟩ :: shown cx rest

end

/-- An expression as an operand. -/
def operand (cx : Context) (e : Expr) : Operand := ⟨e, cx.target.priority e, cx.code e⟩

end Emitter.Context
