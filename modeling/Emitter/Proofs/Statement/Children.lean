import Emitter.Program.Stmt
import Mathlib.Tactic

/-!
# Statements inside statements

The statements and expressions directly in a statement, and induction from what is inside to the
whole.
-/

namespace Emitter.Program.Stmt

/-- The statements directly in a statement, from left to right. -/
def children : Stmt → List Stmt
  | .block stmts => stmts
  | .branch _ onTrue onFalse => onTrue :: onFalse.toList
  | .whileLoop _ body | .doLoop body _ => [body]
  | .forLoop start _ advance body => start.toList ++ advance.toList ++ [body]
  | _ => []

/-- The expressions directly in a statement, from left to right. -/
def exprs : Stmt → List Expr
  | .eval e | .throwError e | .branch e _ _ | .whileLoop e _ | .doLoop _ e => [e]
  | .declare decl => decl.value.toList
  | .assign target _ value => [target, value]
  | .forLoop _ cond _ _ => cond.toList
  | .returnValue value => value.toList
  | _ => []

theorem sizeOf_lt_of_mem_children {s child : Stmt} (h : child ∈ s.children) :
    sizeOf child < sizeOf s := by
  cases s with
  | block stmts =>
      have := List.sizeOf_lt_of_mem (show child ∈ stmts from h)
      simp only [block.sizeOf_spec]
      omega
  | branch cond onTrue onFalse =>
      simp only [children, List.mem_cons, Option.mem_toList] at h
      rcases h with rfl | rfl
      · simp only [branch.sizeOf_spec]
        omega
      · simp only [branch.sizeOf_spec, Option.some.sizeOf_spec]
        omega
  | forLoop start cond advance body =>
      simp only [children, List.mem_append, Option.mem_toList, List.mem_singleton] at h
      rcases h with (rfl | rfl) | rfl <;>
        simp only [forLoop.sizeOf_spec, Option.some.sizeOf_spec] <;> omega
  | _ =>
      simp only [children, List.mem_cons, List.not_mem_nil, or_false] at h <;>
        subst h <;> simp <;> omega

/-- What holds of a statement whenever it holds of the statements in it holds of all
statements. -/
theorem inductOn {P : Stmt → Prop} (h : ∀ s, (∀ child ∈ s.children, P child) → P s) (s : Stmt) :
    P s :=
  h s fun child hchild =>
    have := sizeOf_lt_of_mem_children hchild
    inductOn h child
termination_by s

mutual

/-- The property holds of the statement and of every statement in it. -/
def everywhere (p : Stmt → Bool) : Stmt → Bool
  | .block stmts => p (.block stmts) && everywhereIn p stmts
  | .eval value => p (.eval value)
  | .declare decl => p (.declare decl)
  | .assign target op value => p (.assign target op value)
  | .branch cond onTrue onFalse =>
    p (.branch cond onTrue onFalse) && everywhere p onTrue && everywhereClause p onFalse
  | .whileLoop cond body => p (.whileLoop cond body) && everywhere p body
  | .doLoop body cond => p (.doLoop body cond) && everywhere p body
  | .forLoop start cond advance body =>
    p (.forLoop start cond advance body) && everywhereClause p start &&
      everywhereClause p advance && everywhere p body
  | .breakLoop => p .breakLoop
  | .continueLoop => p .continueLoop
  | .returnValue value => p (.returnValue value)
  | .throwError message => p (.throwError message)
  | .native text => p (.native text)

def everywhereClause (p : Stmt → Bool) : Option Stmt → Bool
  | none => true
  | some s => everywhere p s

def everywhereIn (p : Stmt → Bool) : List Stmt → Bool
  | [] => true
  | s :: rest => everywhere p s && everywhereIn p rest

end

variable {p : Stmt → Bool}

theorem everywhereIn_iff {stmts : List Stmt} :
    everywhereIn p stmts = true ↔ ∀ s ∈ stmts, s.everywhere p = true := by
  induction stmts with
  | nil => simp [everywhereIn]
  | cons s rest ih => simp [everywhereIn, ih]

theorem everywhere_iff {s : Stmt} : s.everywhere p = true ↔
    p s = true ∧ ∀ child ∈ s.children, child.everywhere p = true := by
  cases s with
  | branch cond onTrue onFalse =>
      cases onFalse <;> simp [everywhere, everywhereClause, children, and_assoc]
  | forLoop start cond advance body =>
      cases start <;> cases advance <;>
        simp [everywhere, everywhereClause, children, and_assoc]
  | _ => simp [everywhere, everywhereIn_iff, children]

end Emitter.Program.Stmt
