import Emitter.CFamily.Construction
import Emitter.Target.Expression

/-!
# Local declarations in C

A local of storage type starts out filled with zeros and is constructed by the statements after its
declaration, so it cannot be declared in the head of a loop if it needs any.
-/

namespace Emitter.CFamily

open Layout Program

/-- A local variable, without the semicolon. -/
def declareLocal (cx : Context) (d : Dialect) (decl : VarDecl) : Emit Unit := do
  Emit.put (← (declaration cx d decl.ty (cx.localWord decl.name) : Result Code))
  if decl.ty.isStorage then
    if decl.value.isSome then Emit.note (.initializerDropped cx.target decl.name)
    Emit.put (Code.operator "=" ++ [.symbol "\x7b", .gap, .number "0", .gap, .symbol "\x7d"])
  else
    match decl.value with
    | some e => Emit.put (Code.operator "=" ++ (← (cx.code e : Result Code)))
    | none => pure ()

/-- The statements that construct a local after its declaration. -/
def constructLocal (cx : Context) (decl : VarDecl) : Emit Unit :=
  constructCalls cx 0 [cx.localWord decl.name] decl.ty

/-- Refuses a local in the head of a loop that would need statements after it. -/
def checkLoopStart (cx : Context) (start : Stmt) : Result Unit := do
  match start with
  | .declare decl =>
    if ← lookedUp (cx.program.holdsConstructed decl.ty) then
      cx.unsupported (.constructedInForClause decl.name)
  | _ => return

def assign (cx : Context) (target : Expr) (op : AssignOp) (value : Expr) : Result Code := do
  return (← cx.code target) ++ Code.operator op.text ++ (← cx.code value)

end Emitter.CFamily
