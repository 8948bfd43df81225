import Emitter.Proofs.Statement.Parts

/-!
# Locals of a statement

What stands in a statement at any depth is collected from it, from left to right. The locals that it
declares, in the clauses of loops too, are each printed as a part of it.
-/

namespace Emitter

open Layout Program

namespace Program.Stmt

section Collect

variable {α : Type}

mutual

/-- What `own` gives for the statement and for those in it, from left to right. The clauses in the
head of a loop only count with `clauses`. -/
def collect (clauses : Bool) (own : Stmt → List α) : Stmt → List α
  | .block stmts => own (.block stmts) ++ collectIn clauses own stmts
  | .branch cond onTrue onFalse =>
    own (.branch cond onTrue onFalse) ++
      (collect clauses own onTrue ++ collectClause clauses own onFalse)
  | .whileLoop cond body => own (.whileLoop cond body) ++ collect clauses own body
  | .doLoop body cond => own (.doLoop body cond) ++ collect clauses own body
  | .forLoop start cond advance body =>
    own (.forLoop start cond advance body) ++
      ((if clauses then collectClause clauses own start ++ collectClause clauses own advance
        else []) ++ collect clauses own body)
  | .eval value => own (.eval value)
  | .declare decl => own (.declare decl)
  | .assign target op value => own (.assign target op value)
  | .breakLoop => own .breakLoop
  | .continueLoop => own .continueLoop
  | .returnValue value => own (.returnValue value)
  | .throwError message => own (.throwError message)
  | .native text => own (.native text)

def collectClause (clauses : Bool) (own : Stmt → List α) : Option Stmt → List α
  | none => []
  | some s => collect clauses own s

def collectIn (clauses : Bool) (own : Stmt → List α) : List Stmt → List α
  | [] => []
  | s :: rest => collect clauses own s ++ collectIn clauses own rest

end

variable {clauses : Bool} {own : Stmt → List α} {s : Stmt} {a : α}

theorem collectIn_eq (stmts : List Stmt) :
    collectIn clauses own stmts = stmts.flatMap (collect clauses own) := by
  induction stmts with
  | nil => rfl
  | cons s rest ih => rw [collectIn, ih, List.flatMap_cons]

theorem collectClause_eq (clause : Option Stmt) :
    collectClause clauses own clause = clause.toList.flatMap (collect clauses own) := by
  cases clause <;> simp [collectClause]

theorem collect_eq : s.collect true own = own s ++ s.children.flatMap (collect true own) := by
  cases s <;> simp [collect, children, collectIn_eq, collectClause_eq]

end Collect

/-- The local that the statement declares itself. -/
def ownLocals : Stmt → List VarDecl
  | .declare decl => [decl]
  | _ => []

/-- The locals declared in the statement, from left to right. -/
def locals (s : Stmt) : List VarDecl := s.collect true ownLocals

variable {s : Stmt} {decl : VarDecl}

theorem mem_ownLocals_iff : decl ∈ s.ownLocals ↔ s = .declare decl := by
  cases s <;> simp [ownLocals, eq_comm]

theorem locals_eq : s.locals = s.ownLocals ++ s.children.flatMap locals := collect_eq

end Program.Stmt

namespace Context

variable {cx : Context} {s : Stmt} {stmts : List Stmt} {decl : VarDecl}

/-- A local at any depth is declared as a part of what is printed for the statement. -/
theorem isPart_locals (h : decl ∈ s.locals) : (cx.declareLocal decl).IsPart (cx.statement s) := by
  induction s using Stmt.inductOn with
  | h s ih =>
      rw [Stmt.locals_eq, List.mem_append, List.mem_flatMap] at h
      rcases h with hown | ⟨child, hchild, hdecl⟩
      · obtain rfl := Stmt.mem_ownLocals_iff.mp hown
        rw [statement]
        exact Emit.isPart_first _
      · rcases isPart_statement cx hchild with hpart | hpart
        · exact (ih child hchild hdecl).trans hpart
        · intro steps hsteps
          obtain ⟨before, inner, after, hinner, rfl⟩ := hpart steps hsteps
          rw [Stmt.locals_eq, children_eq_nil_of_simple hinner, List.flatMap_nil,
            List.append_nil] at hdecl
          obtain rfl := Stmt.mem_ownLocals_iff.mp hdecl
          exact ⟨before, inner, after, hinner, rfl⟩

/-- A local at any depth of the statements is declared as a part of what is printed for them. -/
theorem isPart_body (h : decl ∈ stmts.flatMap Stmt.locals) :
    (cx.declareLocal decl).IsPart (cx.body stmts) := by
  obtain ⟨s, hs, hdecl⟩ := List.mem_flatMap.mp h
  exact (isPart_locals hdecl).trans ((isPart_statements hs).trans (Emit.isPart_braced _))

end Context

end Emitter
