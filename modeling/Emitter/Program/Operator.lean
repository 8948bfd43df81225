/-!
# Operators

The operators of expressions and of assignments, and their spelling, which all targets share.
-/

namespace Emitter.Program

inductive UnaryOp
  | neg
  | not
  | bitNot
  | preInc
  | preDec
  | postInc
  | postDec
  deriving DecidableEq, Repr

namespace UnaryOp

def text : UnaryOp → String
  | neg => "-"
  | not => "!"
  | bitNot => "~"
  | preInc | postInc => "++"
  | preDec | postDec => "--"

def isPostfix : UnaryOp → Bool
  | postInc | postDec => true
  | _ => false

/-- The operator changes its operand. -/
def mutates : UnaryOp → Bool
  | preInc | preDec | postInc | postDec => true
  | _ => false

end UnaryOp

/-- Binary operators. Division of integers truncates. -/
inductive BinaryOp
  | add
  | sub
  | mul
  | div
  | mod
  | shl
  | shr
  | less
  | lessEq
  | greater
  | greaterEq
  | eq
  | notEq
  | bitAnd
  | bitOr
  | bitXor
  | and
  | or
  deriving DecidableEq, Repr

namespace BinaryOp

def text : BinaryOp → String
  | add => "+"
  | sub => "-"
  | mul => "*"
  | div => "/"
  | mod => "%"
  | shl => "<<"
  | shr => ">>"
  | less => "<"
  | lessEq => "<="
  | greater => ">"
  | greaterEq => ">="
  | eq => "=="
  | notEq => "!="
  | bitAnd => "&"
  | bitOr => "|"
  | bitXor => "^"
  | and => "&&"
  | or => "||"

/-- The result is a truth value whatever the operands are. -/
def isBoolean : BinaryOp → Bool
  | less | lessEq | greater | greaterEq | eq | notEq | and | or => true
  | _ => false

end BinaryOp

inductive AssignOp
  | assign
  | add
  | sub
  | mul
  | div
  | mod
  | shl
  | shr
  | bitAnd
  | bitOr
  | bitXor
  deriving DecidableEq, Repr

def AssignOp.text : AssignOp → String
  | assign => "="
  | add => "+="
  | sub => "-="
  | mul => "*="
  | div => "/="
  | mod => "%="
  | shl => "<<="
  | shr => ">>="
  | bitAnd => "&="
  | bitOr => "|="
  | bitXor => "^="

end Emitter.Program
