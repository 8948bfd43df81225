import Emitter.Proofs.Dialects.Expression
import Emitter.Proofs.Statement.Clauses

/-!
# Statements in the two dialects of C

What standard C and OpenCL C print for a type, a declaration or a statement differs in its words
only. The dialects stop at the same place, so nothing that is printed around an expression can hide
a fault of it or show another one first.
-/

namespace Emitter

open Layout Program

namespace Emit

variable {α β γ δ : Type} {copies : Prop} {R : α → β → Prop}

/-- The emissions end alike, whatever their steps are. -/
def Alike (copies : Prop) (e e' : Emit Unit) : Prop := Emitter.Alike copies e.outcome e'.outcome

theorem alike_lift {r : Result α} {r' : Result β} {next : α → Emit Unit} {next' : β → Emit Unit}
    (h : Parallel copies R r r') (hnext : ∀ a b, R a b → (next a).Alike copies (next' b)) :
    Alike copies (liftM r >>= next) (liftM r' >>= next') := by
  unfold Alike
  rw [outcome_bind, outcome_bind]
  exact h.bind hnext

/-- A look-up comes to the same in both dialects. -/
theorem alike_lookUp {found : Except SymbolId α} {next next' : α → Emit Unit}
    (h : ∀ a, lookedUp found = .ok a → (next a).Alike copies (next' a)) :
    Alike copies (liftM (lookedUp found) >>= next) (liftM (lookedUp found) >>= next') := by
  unfold Alike
  rw [outcome_bind, outcome_bind]
  cases found with
  | ok a => exact h a rfl
  | error id => exact .faults (.dangling id)

theorem alike_ofSteps (steps steps' : List Step) :
    (ofSteps steps).Alike copies (ofSteps steps') := .values trivial

theorem alike_line (code code' : Code) : (line code).Alike copies (line code') := .values trivial

theorem alike_done : (pure () : Emit Unit).Alike copies (pure ()) := .values trivial

variable {e e' next next' : Emit Unit}

theorem Alike.seq (h : e.Alike copies e') (hnext : next.Alike copies next') :
    Alike copies (do e; next) (do e'; next') := by
  unfold Alike
  rw [outcome_bind, outcome_bind]
  exact Parallel.seq h fun _ _ => hnext

theorem Alike.indented (h : e.Alike copies e') : e.indented.Alike copies e'.indented :=
  (alike_ofSteps _ _).seq h

theorem Alike.braced (h : e.Alike copies e') : e.braced.Alike copies e'.braced :=
  (alike_line _ _).seq h.indented

theorem Alike.deeper (h : e.Alike copies e') : e.deeper.Alike copies e'.deeper :=
  (alike_ofSteps _ _).seq (h.seq (alike_ofSteps _ _))

theorem Alike.group (h : e.Alike copies e') : e.group.Alike copies e'.group :=
  (alike_ofSteps _ _).seq h

theorem Alike.ite {c : Prop} [Decidable c] (h : e.Alike copies e')
    (hnext : next.Alike copies next') :
    Alike copies (if c then e else next) (if c then e' else next') := by
  split_ifs
  · exact h
  · exact hnext

theorem alike_forM {f g : α → Emit Unit} {items : List α}
    (h : ∀ item ∈ items, (f item).Alike copies (g item)) :
    (items.forM f).Alike copies (items.forM g) := by
  induction items with
  | nil => exact alike_done
  | cons item rest ih =>
      obtain ⟨hitem, hrest⟩ := List.forall_mem_cons.mp h
      exact hitem.seq (ih hrest)

end Emit

open Emit

variable {copies : Prop} {p : Program}

namespace CFamily

theorem alike_typeCode (ty : Ty) :
    Emitter.Alike copies (typeCode (p.inC .standard) .standard ty)
      (typeCode (p.inC .openCL) .openCL ty) := by
  induction ty with
  | void | bool | string | enumeration => exact alike_pure _ _
  | int kind => exact alike_pure _ _
  | float kind => cases kind <;> exact alike_pure _ _
  | null => exact Context.alike_unmappedType .null
  | classStorage id | classRef id => exact (Context.parallel_classOf id).andThen
  | array element storage length ih => exact ih.andThen

/-- The dimensions of an array are the same in both dialects. -/
theorem parallel_dimensions (ty : Ty) :
    Parallel copies Eq (dimensions (p.inC .standard) ty) (dimensions (p.inC .openCL) ty) := by
  induction ty with
  | array element storage length ih =>
      cases storage with
      | false => exact .values rfl
      | true =>
          cases length with
          | none => exact .faults (.refused (.unsupported (.cFamily .openCL) .dynamicArrayStorage))
          | some n => exact ih.bind fun _ _ h => .values (by rw [h])
  | _ => exact .values rfl

theorem alike_declaration (ty : Ty) (name name' : Lexeme) :
    Emitter.Alike copies (declaration (p.inC .standard) .standard ty name)
      (declaration (p.inC .openCL) .openCL ty name') := by
  refine (parallel_dimensions ty).bind fun found found' h => ?_
  subst h
  exact (alike_typeCode _).andThen

theorem alike_constructCalls (depth : Nat) (place place' : Code) (ty : Ty) :
    (constructCalls (p.inC .standard) depth place ty).Alike copies
      (constructCalls (p.inC .openCL) depth place' ty) := by
  induction ty generalizing depth place place' with
  | classStorage id =>
      refine alike_lift (parallel_lookedUp _) fun constructed _ h => ?_
      subst h
      cases constructed with
      | false => exact alike_done
      | true => exact alike_lift (Context.parallel_classOf id) fun _ _ _ => alike_line _ _
  | array element storage length ih =>
      cases storage with
      | false => exact alike_done
      | true =>
          refine alike_lift (parallel_lookedUp _) fun constructed _ h => ?_
          subst h
          cases constructed with
          | false => exact alike_done
          | true =>
              cases length with
              | none => exact Context.alike_unsupported .dynamicArrayStorage rfl
              | some n => exact (alike_line _ _).seq (ih _ _ _).indented
  | _ => exact alike_done

end CFamily

namespace Context

variable {e : Expr} {s : Stmt}

theorem alike_code (he : ¬copies → e.everywhere (!·.copiesArray) = true) :
    Emitter.Alike copies ((p.inC .standard).code e) ((p.inC .openCL).code e) :=
  (printsAlike he).1.code

theorem alike_declareLocal {decl : VarDecl}
    (h : ∀ e ∈ decl.value, ¬copies → e.everywhere (!·.copiesArray) = true) :
    (CFamily.declareLocal (p.inC .standard) .standard decl).Alike copies
      (CFamily.declareLocal (p.inC .openCL) .openCL decl) := by
  refine alike_lift (CFamily.alike_declaration _ _ _) fun _ _ _ => (alike_ofSteps _ _).seq ?_
  refine Alike.ite ?_ ?_
  · split
    · exact (alike_ofSteps _ _).seq (alike_ofSteps _ _)
    · exact alike_ofSteps _ _
  · cases hvalue : decl.value with
    | none => exact alike_done
    | some e => exact alike_lift (alike_code (h e hvalue)) fun _ _ _ => alike_ofSteps _ _

/-- What holds of a statement if all that it directly consists of keeps away from arrays. -/
theorem alike_simple (hs : ∀ e ∈ s.exprs, ¬copies → e.everywhere (!·.copiesArray) = true) :
    ((p.inC .standard).simple s).Alike copies ((p.inC .openCL).simple s) := by
  cases s with
  | eval e =>
      exact alike_lift (alike_code (hs e (by simp [Stmt.exprs]))) fun _ _ _ => alike_ofSteps _ _
  | declare decl => exact alike_declareLocal fun e he => hs e (by simpa [Stmt.exprs] using he)
  | assign target op value =>
      have htarget := alike_code (p := p) (hs target (by simp [Stmt.exprs]))
      have hvalue := alike_code (p := p) (hs value (by simp [Stmt.exprs]))
      exact alike_lift (htarget.seq fun _ _ => hvalue.andThen) fun _ _ _ => alike_ofSteps _ _
  | _ => exact alike_unsupported .forClause rfl

theorem alike_simpleLine (hs : ∀ e ∈ s.exprs, ¬copies → e.everywhere (!·.copiesArray) = true) :
    ((p.inC .standard).simpleLine s).Alike copies ((p.inC .openCL).simpleLine s) := by
  refine (alike_simple hs).seq ((alike_line _ _).seq ?_)
  cases s with
  | declare decl => exact CFamily.alike_constructCalls _ _ _ _
  | _ => exact alike_done

theorem alike_loopStart (hs : ∀ e ∈ s.exprs, ¬copies → e.everywhere (!·.copiesArray) = true) :
    ((p.inC .standard).loopStart s).Alike copies ((p.inC .openCL).loopStart s) := by
  have hcheck : Emitter.Alike copies (CFamily.checkLoopStart (p.inC .standard) s)
      (CFamily.checkLoopStart (p.inC .openCL) s) := by
    cases s with
    | declare decl =>
        refine (parallel_lookedUp _).bind fun constructed _ h => ?_
        subst h
        exact Parallel.ite (alike_unsupported _ rfl) (alike_pure _ _)
    | _ => exact alike_pure _ _
  exact alike_lift hcheck fun _ _ _ => alike_simple hs

theorem alike_head (keyword : String)
    (he : ¬copies → e.everywhere (!·.copiesArray) = true) :
    ((p.inC .standard).head keyword e).Alike copies ((p.inC .openCL).head keyword e) :=
  alike_lift (alike_code he) fun _ _ _ => alike_ofSteps _ _

theorem alike_nested {e e' : Emit Unit} (h : e.Alike copies e') :
    (nested s e).Alike copies (nested s e') :=
  Alike.ite ((alike_ofSteps _ _).seq h) ((alike_ofSteps _ _).seq h.indented)

theorem alike_alternative {e e' : Emit Unit} (h : e.Alike copies e') :
    (alternative s e).Alike copies (alternative s e') :=
  (alike_ofSteps _ _).seq (Alike.ite ((alike_ofSteps _ _).seq h) (alike_nested h))

theorem alike_statements {stmts : List Stmt}
    (h : ∀ s ∈ stmts, ((p.inC .standard).statement s).Alike copies ((p.inC .openCL).statement s)) :
    ((p.inC .standard).statements stmts).Alike copies ((p.inC .openCL).statements stmts) := by
  induction stmts with
  | nil => exact alike_done
  | cons s rest ih =>
      obtain ⟨hs, hrest⟩ := List.forall_mem_cons.mp h
      rw [statements, statements]
      exact hs.seq (ih hrest)

theorem alike_loopHead {start : Option Stmt} {cond : Option Expr} {advance : Option Stmt}
    (hstart : ∀ s ∈ start, ∀ e ∈ s.exprs, ¬copies → e.everywhere (!·.copiesArray) = true)
    (hcond : ∀ e ∈ cond, ¬copies → e.everywhere (!·.copiesArray) = true)
    (hadvance : ∀ s ∈ advance, ∀ e ∈ s.exprs, ¬copies → e.everywhere (!·.copiesArray) = true) :
    ((p.inC .standard).loopHead start cond advance).Alike copies
      ((p.inC .openCL).loopHead start cond advance) := by
  have hstart : ((p.inC .standard).startClause start).Alike copies
      ((p.inC .openCL).startClause start) := by
    cases start with
    | none => exact alike_done
    | some s => exact alike_loopStart (hstart s rfl)
  have hcond : ((p.inC .standard).condClause cond).Alike copies
      ((p.inC .openCL).condClause cond) := by
    cases cond with
    | none => exact alike_done
    | some e => exact alike_lift (alike_code (hcond e rfl)) fun _ _ _ => alike_ofSteps _ _
  have hadvance : ((p.inC .standard).advanceClause advance).Alike copies
      ((p.inC .openCL).advanceClause advance) := by
    cases advance with
    | none => exact alike_done
    | some s => exact (alike_ofSteps _ _).seq (alike_simple (hadvance s rfl))
  rw [loopHead_eq, loopHead_eq]
  exact (alike_ofSteps _ _).seq (hstart.seq ((alike_ofSteps _ _).seq (hcond.seq
    ((alike_ofSteps _ _).seq (hadvance.seq (alike_ofSteps _ _))))))

theorem alike_statement (hs : ¬copies → s.everyExpr (!·.copiesArray) = true) :
    ((p.inC .standard).statement s).Alike copies ((p.inC .openCL).statement s) := by
  induction s using Stmt.inductOn with
  | h s ih =>
  have hexprs : ∀ e ∈ s.exprs, ¬copies → e.everywhere (!·.copiesArray) = true :=
    fun e he hcopies => (Stmt.everyExpr_iff.mp (hs hcopies)).1 e he
  have hchildren : ∀ child ∈ s.children, ¬copies → child.everyExpr (!·.copiesArray) = true :=
    fun child hchild hcopies => (Stmt.everyExpr_iff.mp (hs hcopies)).2 child hchild
  have ih : ∀ child ∈ s.children,
      ((p.inC .standard).statement child).Alike copies ((p.inC .openCL).statement child) :=
    fun child hchild => ih child hchild (hchildren child hchild)
  cases s with
  | block stmts =>
      rw [statement, statement]
      exact (alike_statements ih).braced
  | eval e | declare decl | assign target op value =>
      rw [statement, statement]
      exact alike_simpleLine hexprs
  | branch cond onTrue onFalse =>
      have hhead := alike_head (p := p) "if" (hexprs cond (by simp [Stmt.exprs]))
      have htrue := alike_nested (s := onTrue) (ih onTrue (by simp [Stmt.children]))
      cases onFalse with
      | none =>
          rw [statement, statement]
          exact hhead.seq htrue
      | some onFalse =>
          rw [statement, statement]
          exact hhead.seq (htrue.seq (alike_alternative (ih onFalse (by simp [Stmt.children]))))
  | whileLoop cond body =>
      rw [statement, statement]
      exact (alike_head "while" (hexprs cond (by simp [Stmt.exprs]))).seq
        (alike_nested (ih body (by simp [Stmt.children])))
  | doLoop body cond =>
      rw [statement, statement]
      exact (alike_ofSteps _ _).seq ((alike_nested (ih body (by simp [Stmt.children]))).seq
        ((alike_head "while" (hexprs cond (by simp [Stmt.exprs]))).seq (alike_line _ _)))
  | forLoop start cond advance body =>
      have hclause : ∀ child ∈ start.toList ++ advance.toList, ∀ e ∈ child.exprs,
          ¬copies → e.everywhere (!·.copiesArray) = true := fun child hchild e he hcopies =>
        (Stmt.everyExpr_iff.mp (hchildren child (List.mem_append_left [body] hchild) hcopies)).1 e
          he
      rw [statement, statement]
      exact (alike_loopHead (fun s hs => hclause s (by simp_all)) (fun e he => hexprs e (by
        simpa [Stmt.exprs] using he)) fun s hs => hclause s (by simp_all)).seq
          (alike_nested (ih body (by simp [Stmt.children])))
  | breakLoop | continueLoop =>
      rw [statement, statement]
      exact alike_line _ _
  | returnValue value =>
      rw [statement, statement]
      cases value with
      | none => exact alike_line _ _
      | some e => exact alike_lift (alike_code (hexprs e (by simp [Stmt.exprs]))) fun _ _ _ =>
        alike_line _ _
  | native text =>
      rw [statement, statement]
      exact alike_ofSteps _ _
  | _ =>
      rw [statement, statement]
      exact alike_unsupported .exceptions rfl

theorem alike_body {stmts : Block}
    (h : ∀ s ∈ stmts, ¬copies → s.everyExpr (!·.copiesArray) = true) :
    ((p.inC .standard).body stmts).Alike copies ((p.inC .openCL).body stmts) :=
  (alike_statements fun s hs => alike_statement (h s hs)).braced

end Context

end Emitter
