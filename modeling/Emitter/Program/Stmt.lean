import Emitter.Program.Expr

/-!
# Statements
-/

namespace Emitter.Program

/-- A local variable and its explicit initializer, if it has one. -/
structure VarDecl where
  name : String
  ty : Ty
  value : Option Expr

/-- Statements. `native` holds target code that is copied as it is. -/
inductive Stmt
  | block (stmts : List Stmt)
  | eval (value : Expr)
  | declare (decl : VarDecl)
  | assign (target : Expr) (op : AssignOp) (value : Expr)
  | branch (cond : Expr) (onTrue : Stmt) (onFalse : Option Stmt)
  | whileLoop (cond : Expr) (body : Stmt)
  | doLoop (body : Stmt) (cond : Expr)
  | forLoop (start : Option Stmt) (cond : Option Expr) (advance : Option Stmt) (body : Stmt)
  | breakLoop
  | continueLoop
  | returnValue (value : Option Expr)
  | throwError (message : Expr)
  | native (text : String)

abbrev Block := List Stmt

namespace Stmt

def isBlock : Stmt → Bool
  | block _ => true
  | _ => false

def isBranch : Stmt → Bool
  | branch .. => true
  | _ => false

end Stmt

end Emitter.Program
