import Emitter.ActionScript.Declaration
import Emitter.CFamily.Declaration

/-!
# Printing statements

A block opens on the line of the statement it belongs to; any other statement inside one goes one
level deeper on the next line. An `else` that carries another condition stays on one line with it.
-/

namespace Emitter.Context

open Layout Program

/-- An expression as a step of an emission. -/
def inline (cx : Context) (e : Expr) : Emit Code := (cx.code e : Result Code)

/-- A local variable, without the semicolon. -/
def declareLocal (cx : Context) (decl : VarDecl) : Emit Unit :=
  match cx.target with
  | .actionScript => ActionScript.declareLocal cx decl
  | .cFamily d => CFamily.declareLocal cx d decl

def assign (cx : Context) (target : Expr) (op : AssignOp) (value : Expr) : Result Code :=
  match cx.target with
  | .actionScript => ActionScript.assign cx target op value
  | .cFamily _ => CFamily.assign cx target op value

/-- An expression, a local or an assignment, without the semicolon. -/
def simple (cx : Context) : Stmt → Emit Unit
  | .eval e => do Emit.put (← cx.inline e)
  | .declare decl => cx.declareLocal decl
  | .assign target op value => do Emit.put (← (cx.assign target op value : Result Code))
  | _ => (cx.unsupported .forClause : Result Unit)

/-- What has to follow a simple statement. -/
def afterSimple (cx : Context) (s : Stmt) : Emit Unit :=
  match cx.target, s with
  | .cFamily _, .declare decl => CFamily.constructLocal cx decl
  | _, _ => pure ()

def simpleLine (cx : Context) (s : Stmt) : Emit Unit := do
  cx.simple s
  Emit.line [.symbol ";"]
  cx.afterSimple s

/-- The first clause of a loop's head. -/
def loopStart (cx : Context) (start : Stmt) : Emit Unit := do
  match cx.target with
  | .actionScript => pure ()
  | .cFamily _ => (CFamily.checkLoopStart cx start : Result Unit)
  cx.simple start

/-- The head of a loop with its three clauses. -/
def loopHead (cx : Context) (start : Option Stmt) (cond : Option Expr) (advance : Option Stmt) :
    Emit Unit := do
  Emit.put [.word "for", .gap, .symbol "("]
  match start with
  | some s => cx.loopStart s
  | none => pure ()
  Emit.put [.symbol ";"]
  match cond with
  | some e => Emit.put (.gap :: (← cx.inline e))
  | none => pure ()
  Emit.put [.symbol ";"]
  match advance with
  | some s =>
    Emit.put [.gap]
    cx.simple s
  | none => pure ()
  Emit.put [.symbol ")"]

/-- A keyword and an expression between parentheses. -/
def head (cx : Context) (keyword : String) (cond : Expr) : Emit Unit := do
  Emit.put ([.word keyword, .gap] ++ Code.parenthesized (← cx.inline cond))

/-- A statement, given printed, in the place of a branch or a body. -/
def nested (s : Stmt) (printed : Emit Unit) : Emit Unit := do
  if s.isBlock then
    Emit.put [.gap]
    printed
  else
    Emit.newline
    printed.indented

/-- A statement, given printed, behind `else`. -/
def alternative (s : Stmt) (printed : Emit Unit) : Emit Unit := do
  Emit.put [.word "else"]
  if s.isBranch then
    Emit.put [.gap]
    printed
  else nested s printed

def returned (cx : Context) : Option Expr → Emit Unit
  | some e => do Emit.line ([.word "return", .gap] ++ (← cx.inline e) ++ [.symbol ";"])
  | none => Emit.line [.word "return", .symbol ";"]

def thrown (cx : Context) (message : Expr) : Emit Unit :=
  match cx.target with
  | .actionScript => do
    Emit.line ([.word "throw", .gap] ++ (← cx.inline message) ++ [.symbol ";"])
  | .cFamily _ => (cx.unsupported .exceptions : Result Unit)

mutual

/-- A statement on lines of its own. -/
def statement (cx : Context) : Stmt → Emit Unit
  | .block stmts => (statements cx stmts).braced
  | .eval e => cx.simpleLine (.eval e)
  | .declare decl => cx.simpleLine (.declare decl)
  | .assign target op value => cx.simpleLine (.assign target op value)
  | .branch cond onTrue none => do
    cx.head "if" cond
    nested onTrue (statement cx onTrue)
  | .branch cond onTrue (some onFalse) => do
    cx.head "if" cond
    nested onTrue (statement cx onTrue)
    alternative onFalse (statement cx onFalse)
  | .whileLoop cond body => do
    cx.head "while" cond
    nested body (statement cx body)
  | .doLoop body cond => do
    Emit.put [.word "do"]
    nested body (statement cx body)
    cx.head "while" cond
    Emit.line [.symbol ";"]
  | .forLoop start cond advance body => do
    cx.loopHead start cond advance
    nested body (statement cx body)
  | .breakLoop => Emit.line [.word "break", .symbol ";"]
  | .continueLoop => Emit.line [.word "continue", .symbol ";"]
  | .returnValue value => cx.returned value
  | .throwError message => cx.thrown message
  | .native text => Emit.lines text

/-- Statements one after the other. -/
def statements (cx : Context) : List Stmt → Emit Unit
  | [] => pure ()
  | s :: rest => do
    statement cx s
    statements cx rest

end

/-- Statements between braces. -/
def body (cx : Context) (stmts : Block) : Emit Unit := (cx.statements stmts).braced

end Emitter.Context
