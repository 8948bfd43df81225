import Emitter.Program.Lookup

/-!
# References a program mentions

Every reference to an enumeration or a class, in the order of reading: the top-level symbols
first, then each class with its constructor, its members and its constant tables. A program is
whole when each of them points at a declaration; otherwise the first that does not is reported.
-/

namespace Emitter.Program

def Ty.mentions : Ty → List SymbolId
  | .enumeration id => [.enumeration id]
  | .classStorage id | .classRef id => [.classDef id]
  | .array element _ _ => element.mentions
  | _ => []

mutual

def ConstValue.mentions : ConstValue → List SymbolId
  | .enumValue id _ => [.enumeration id]
  | .array items => itemMentions items
  | _ => []

def itemMentions : List ConstValue → List SymbolId
  | [] => []
  | item :: rest => item.mentions ++ itemMentions rest

end

def Callee.mentions : Callee → List SymbolId
  | .builtin _ => []
  | .user owner _ _ => [.classDef owner]

mutual

/-- The expression's own type comes before what it is made of. -/
def Expr.mentions : Expr → List SymbolId
  | .literal _ ty | .var _ ty | .this ty | .resource _ ty => ty.mentions
  | .const owner _ ty => ty.mentions ++ [.classDef owner]
  | .enumValue id _ ty => ty.mentions ++ [.enumeration id]
  | .field obj _ ty => ty.mentions ++ obj.mentions
  | .property obj _ ty => ty.mentions ++ obj.mentions
  | .call receiver callee args ty =>
    ty.mentions ++ callee.mentions ++ receiverMentions receiver ++ argMentions args
  | .index array position ty => ty.mentions ++ array.mentions ++ position.mentions
  | .unary _ operand ty => ty.mentions ++ operand.mentions
  | .binary left _ right ty => ty.mentions ++ left.mentions ++ right.mentions
  | .select cond onTrue onFalse ty =>
    ty.mentions ++ cond.mentions ++ onTrue.mentions ++ onFalse.mentions
  | .interpolated parts _ ty => ty.mentions ++ partMentions parts

def receiverMentions : Option Expr → List SymbolId
  | none => []
  | some e => e.mentions

def argMentions : List Expr → List SymbolId
  | [] => []
  | e :: rest => e.mentions ++ argMentions rest

def partMentions : List Part → List SymbolId
  | [] => []
  | .mk _ arg :: rest => arg.mentions ++ partMentions rest

end

def VarDecl.mentions (decl : VarDecl) : List SymbolId :=
  decl.ty.mentions ++ receiverMentions decl.value

mutual

/-- A loop's condition comes before its body, also where it is written after it. -/
def Stmt.mentions : Stmt → List SymbolId
  | .block stmts => blockMentions stmts
  | .eval e | .throwError e => e.mentions
  | .declare decl => decl.mentions
  | .assign target _ value => target.mentions ++ value.mentions
  | .branch cond onTrue onFalse => cond.mentions ++ onTrue.mentions ++ clauseMentions onFalse
  | .whileLoop cond body => cond.mentions ++ body.mentions
  | .doLoop body cond => cond.mentions ++ body.mentions
  | .forLoop start cond advance body =>
    clauseMentions start ++ receiverMentions cond ++ clauseMentions advance ++ body.mentions
  | .returnValue value => receiverMentions value
  | .breakLoop | .continueLoop | .native _ => []

def clauseMentions : Option Stmt → List SymbolId
  | none => []
  | some s => s.mentions

def blockMentions : List Stmt → List SymbolId
  | [] => []
  | s :: rest => s.mentions ++ blockMentions rest

end

def ConstDef.mentions (const : ConstDef) : List SymbolId :=
  const.ty.mentions ++ const.value.mentions

def Member.mentions : Member → List SymbolId
  | .field f => f.ty.mentions ++ receiverMentions f.value
  | .const k => k.mentions
  | .method m =>
    m.returnType.mentions ++ m.params.flatMap (·.ty.mentions) ++ blockMentions m.body

def ClassDef.mentions (c : ClassDef) : List SymbolId :=
  blockMentions (c.constructor?.getD []) ++ c.members.flatMap (·.mentions) ++
    c.constArrays.flatMap (·.mentions)

/-- All references of a program, in the order of reading. -/
def mentions (p : Program) : List SymbolId :=
  p.globals ++ p.classes.flatMap (·.mentions)

/-- The first reference that points at no declaration. -/
def findDangling (p : Program) : Option SymbolId :=
  p.mentions.find? fun id => !p.declares id

end Emitter.Program
