import Emitter.Program.Expr
import Emitter.Target.Basic

/-!
# Operator priorities

How tightly printed expressions bind, which all targets share with C. An operand gets parentheses
where its priority is below what its position asks for.
-/

namespace Emitter

open Program

inductive Priority
  | statement
  | argument
  | select
  | condOr
  | condAnd
  | or
  | xor
  | and
  | equality
  | rel
  | shift
  | add
  | mul
  | prefixed
  | postfixed
  | primary
  deriving DecidableEq, Repr

namespace Priority

/-- The place in the order of binding, the loosest first. -/
def rank : Priority → Nat
  | statement => 0
  | argument => 1
  | select => 2
  | condOr => 3
  | condAnd => 4
  | or => 5
  | xor => 6
  | and => 7
  | equality => 8
  | rel => 9
  | shift => 10
  | add => 11
  | mul => 12
  | prefixed => 13
  | postfixed => 14
  | primary => 15

instance : LT Priority := ⟨fun a b => a.rank < b.rank⟩

instance : LE Priority := ⟨fun a b => a.rank ≤ b.rank⟩

instance (a b : Priority) : Decidable (a < b) := inferInstanceAs (Decidable (a.rank < b.rank))

instance (a b : Priority) : Decidable (a ≤ b) := inferInstanceAs (Decidable (a.rank ≤ b.rank))

/-- The name under which a priority is reported. -/
def name : Priority → String
  | statement => "Statement"
  | argument => "Argument"
  | select => "Select"
  | condOr => "CondOr"
  | condAnd => "CondAnd"
  | or => "Or"
  | xor => "Xor"
  | and => "And"
  | equality => "Equality"
  | rel => "Rel"
  | shift => "Shift"
  | add => "Add"
  | mul => "Mul"
  | prefixed => "Prefix"
  | postfixed => "Postfix"
  | primary => "Primary"

end Priority

def Program.BinaryOp.priority : BinaryOp → Priority
  | .mul | .div | .mod => .mul
  | .add | .sub => .add
  | .shl | .shr => .shift
  | .less | .lessEq | .greater | .greaterEq => .rel
  | .eq | .notEq => .equality
  | .bitAnd => .and
  | .bitXor => .xor
  | .bitOr => .or
  | .and => .condAnd
  | .or => .condOr

/-- A number below zero is printed with a sign. -/
def Program.Literal.isBelowZero : Literal → Bool
  | .int n => n < 0
  | .float x => x.isBelowZero
  | _ => false

/-- The priority of an expression in the form that the targets share. -/
def Program.Expr.priority : Expr → Priority
  | .literal value _ => if value.isBelowZero then .prefixed else .primary
  | .var .. | .this _ | .const .. | .enumValue .. | .resource .. | .interpolated .. => .primary
  | .field .. | .property .. | .call .. | .index .. => .postfixed
  | .unary op _ _ => if op.isPostfix then .postfixed else .prefixed
  | .binary _ op _ _ => op.priority
  | .select .. => .select

/-- The priority of an expression in the form a target gives it. -/
def Target.priority : Target → Expr → Priority
  | .actionScript, .property _ .signExtendByte _ => .add
  | .actionScript, .property _ .lowByte _ => .and
  | .actionScript, .binary _ .div _ ty => if ty.isInteger then .primary else .mul
  | .actionScript, .interpolated .. => .add
  | .cFamily _, .property .. => .prefixed
  | .cFamily _, .call _ (.builtin .mulDiv) _ _ => .prefixed
  | _, e => e.priority

end Emitter
