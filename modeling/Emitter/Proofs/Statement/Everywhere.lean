import Emitter.Program.Basic
import Emitter.Proofs.Expression.Everywhere
import Emitter.Proofs.Statement.Children

/-!
# Tests on all expressions

A test on single expressions, taken to all expressions in a statement and in a program.
-/

namespace Emitter.Program

/-- The test holds of all expressions in the statement. -/
def Stmt.everyExpr (q : Expr → Bool) (s : Stmt) : Bool :=
  s.everywhere fun s => s.exprs.all (Expr.everywhere q)

/-- The test holds of all expressions in the program. -/
def everyExpr (p : Program) (q : Expr → Bool) : Bool :=
  p.classes.all fun c =>
    c.fields.all (fun f => f.value.toList.all (Expr.everywhere q)) &&
      (c.constructor?.getD []).all (Stmt.everyExpr q) &&
        c.methods.all fun m => m.body.all (Stmt.everyExpr q)

variable {p : Program} {q : Expr → Bool}

theorem Stmt.everyExpr_iff {s : Stmt} : s.everyExpr q = true ↔
    (∀ e ∈ s.exprs, e.everywhere q = true) ∧ ∀ child ∈ s.children, child.everyExpr q = true := by
  unfold Stmt.everyExpr
  rw [Stmt.everywhere_iff, List.all_eq_true]

theorem everyExpr_iff : p.everyExpr q = true ↔ ∀ c ∈ p.classes,
    (∀ f ∈ c.fields, ∀ e ∈ f.value, e.everywhere q = true) ∧
      (∀ s ∈ c.constructor?.getD [], s.everyExpr q = true) ∧
        ∀ m ∈ c.methods, ∀ s ∈ m.body, s.everyExpr q = true := by
  simp [everyExpr, and_assoc]

theorem Expr.everywhere_true (e : Expr) : e.everywhere (fun _ => true) = true := by
  induction e using Expr.inductOn with
  | h e ih => exact Expr.everywhere_iff.mpr ⟨rfl, ih⟩

theorem Stmt.everyExpr_true (s : Stmt) : s.everyExpr (fun _ => true) = true := by
  induction s using Stmt.inductOn with
  | h s ih => exact Stmt.everyExpr_iff.mpr ⟨fun e _ => e.everywhere_true, ih⟩

theorem everyExpr_true (p : Program) : p.everyExpr (fun _ => true) = true :=
  everyExpr_iff.mpr fun _ _ => ⟨fun _ _ e _ => e.everywhere_true, fun s _ => s.everyExpr_true,
    fun _ _ s _ => s.everyExpr_true⟩

end Emitter.Program
