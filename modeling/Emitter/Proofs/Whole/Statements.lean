import Emitter.Proofs.Statement.Clauses
import Emitter.Proofs.Whole.Balance
import Emitter.Proofs.Whole.Expressions

/-!
# Printing statements of whole programs

In a whole program, printing a statement is steady: it is printed or refused, and what it opens it
closes.
-/

namespace Emitter

open Layout Program

namespace ActionScript

variable {cx : Context}

theorem proper_typeCode {ty : Ty} (h : cx.program.Resolves ty.mentions) :
    Proper (typeCode cx ty) := by
  induction ty with
  | int kind => cases kind <;> simp [typeCode]
  | classStorage id | classRef id =>
      simp only [Ty.mentions, Program.resolves_cons] at h
      simp [typeCode, Context.proper_classOf h.1]
  | array element storage length ih => simp [typeCode, ih h]
  | _ => simp [typeCode]

theorem proper_typed (name : String) {ty : Ty} (h : cx.program.Resolves ty.mentions) :
    Proper (typed cx name ty) := by
  simp [typed, proper_typeCode h]

theorem proper_impliedInitializer {ty : Ty} (h : cx.program.Resolves ty.mentions) :
    Proper (impliedInitializer cx ty) := by
  unfold impliedInitializer
  split
  · simp only [Ty.mentions, Program.resolves_cons] at h
    simp [Context.proper_classOf h.1]
  · simp
  · simp

theorem steady_initializer (hp : cx.program.Whole) (name : String) {ty : Ty} {value : Option Expr}
    (hty : cx.program.Resolves ty.mentions) (hvalue : ∀ e ∈ value, cx.program.Resolves e.mentions) :
    (initializer cx name ty value).Steady := by
  unfold initializer
  refine Emit.Steady.bind (by simpa using proper_impliedInitializer hty) fun implied _ => ?_
  cases implied with
  | some code =>
      refine Emit.steady_seq (Emit.steady_put _) ?_
      split <;> simp
  | none =>
      cases value with
      | none => exact Emit.steady_pure ()
      | some e =>
          exact Emit.Steady.bind (by simpa using Context.proper_code hp (hvalue e rfl))
            fun _ _ => Emit.steady_put _

theorem steady_declareLocal (hp : cx.program.Whole) {decl : VarDecl}
    (h : cx.program.Resolves decl.mentions) : (declareLocal cx decl).Steady := by
  simp only [VarDecl.mentions, Program.resolves_append, Program.resolves_receiverMentions] at h
  unfold declareLocal
  refine Emit.Steady.bind (by simpa using proper_typed decl.name h.1) fun _ _ => ?_
  exact Emit.steady_seq (Emit.steady_put _) (steady_initializer hp decl.name h.1 h.2)

theorem proper_assign (hp : cx.program.Whole) {target value : Expr} (op : AssignOp)
    (htarget : cx.program.Resolves target.mentions) (hvalue : cx.program.Resolves value.mentions) :
    Proper (assign cx target op value) := by
  have htarget' : Proper (cx.operand target).code := Context.proper_code hp htarget
  have hvalue' : Proper (cx.operand value).code := Context.proper_code hp hvalue
  have hplain : Proper (cx.code target) := htarget'
  have hgiven : Proper (cx.code value) := hvalue'
  unfold assign
  split
  · split
    · simp [hplain, quotient, htarget', hvalue']
    · cases target with
      | index array position ty =>
          have harray : Proper (cx.operand array).code :=
            Context.proper_code hp (Context.resolves_child htarget (by simp [Expr.children]))
          have hposition : Proper (cx.operand position).code :=
            Context.proper_code hp (Context.resolves_child htarget (by simp [Expr.children]))
          exact Context.proper_helperCall _ _ (by simp [harray, hposition, hvalue'])
      | _ => simp
  · simp [hplain, hgiven]

end ActionScript

namespace CFamily

variable {cx : Context} {d : Dialect}

theorem proper_typeCode {ty : Ty} (h : cx.program.Resolves ty.mentions) :
    Proper (typeCode cx d ty) := by
  induction ty with
  | float kind => cases kind <;> simp [typeCode]
  | classStorage id | classRef id =>
      simp only [Ty.mentions, Program.resolves_cons] at h
      simp [typeCode, Context.proper_classOf h.1]
  | array element storage length ih => simp [typeCode, ih h]
  | _ => simp [typeCode]

/-- The element type inside all lengths mentions what the whole type mentions. -/
theorem proper_dimensions (cx : Context) (ty : Ty) : Proper (dimensions cx ty) ∧
    ∀ lengths base, dimensions cx ty = .ok (lengths, base) → base.mentions = ty.mentions := by
  induction ty with
  | array element storage length ih =>
      cases storage with
      | false => simp [dimensions]
      | true =>
          cases length with
          | none => simp [dimensions, Context.unsupported]
          | some n =>
              refine ⟨by simp [dimensions, ih.1], fun lengths base h => ?_⟩
              rw [dimensions] at h
              obtain ⟨⟨inner, element'⟩, hinner, h⟩ := Result.bind_eq_ok.mp h
              obtain ⟨rfl, rfl⟩ := Prod.mk.inj (Except.ok.inj h)
              simpa [Ty.mentions] using ih.2 inner _ hinner
  | _ => simp [dimensions]

theorem proper_declaration (name : Lexeme) {ty : Ty} (h : cx.program.Resolves ty.mentions) :
    Proper (declaration cx d ty name) := by
  obtain ⟨hdims, hbase⟩ := proper_dimensions cx ty
  unfold declaration
  rw [proper_bind]
  refine ⟨hdims, fun ⟨lengths, base⟩ hdim => ?_⟩
  have htype : Proper (typeCode cx d base) := proper_typeCode (by rwa [hbase lengths base hdim])
  simp [htype]

theorem proper_lookedUp_ok {α : Type} {r : Except SymbolId α} (h : ∃ a, r = .ok a) :
    Proper (lookedUp r) := by
  obtain ⟨a, rfl⟩ := h
  exact proper_ok a

theorem steady_constructCalls (hp : cx.program.Whole) (depth : Nat) (place : Code) {ty : Ty}
    (h : cx.program.Resolves ty.mentions) : (constructCalls cx depth place ty).Steady := by
  induction ty generalizing depth place with
  | classStorage id =>
      simp only [Ty.mentions, Program.resolves_cons] at h
      unfold constructCalls
      refine Emit.Steady.bind ?_ fun constructed _ => ?_
      · simpa using proper_lookedUp_ok (hp.needsConstruction h.1)
      · cases constructed with
        | false => exact Emit.steady_pure ()
        | true =>
            exact Emit.Steady.bind (by simpa using Context.proper_classOf h.1)
              fun _ _ => Emit.steady_line _
  | array element storage length ih =>
      cases storage with
      | false => exact Emit.steady_pure ()
      | true =>
          unfold constructCalls
          refine Emit.Steady.bind ?_ fun constructed _ => ?_
          · simpa using proper_lookedUp_ok (hp.holdsConstructed h)
          · cases constructed with
            | false => exact Emit.steady_pure ()
            | true =>
                cases length with
                | none => simp
                | some n => exact Emit.steady_seq (Emit.steady_line _) (ih _ _ h).indented
  | _ => exact Emit.steady_pure ()

theorem steady_declareLocal (hp : cx.program.Whole) {decl : VarDecl}
    (h : cx.program.Resolves decl.mentions) : (declareLocal cx d decl).Steady := by
  simp only [VarDecl.mentions, Program.resolves_append, Program.resolves_receiverMentions] at h
  unfold declareLocal
  refine Emit.Steady.bind (by simpa using proper_declaration _ h.1) fun _ _ => ?_
  refine Emit.steady_seq (Emit.steady_put _) ?_
  split
  · split <;> simp
  · split
    case h_1 e hvalue =>
      exact Emit.Steady.bind (by simpa using Context.proper_code hp (h.2 e hvalue))
        fun _ _ => Emit.steady_put _
    case h_2 => exact Emit.steady_pure ()

theorem proper_checkLoopStart (hp : cx.program.Whole) {start : Stmt}
    (h : cx.program.Resolves start.mentions) : Proper (checkLoopStart cx start) := by
  unfold checkLoopStart
  split
  case h_1 decl =>
    simp only [Stmt.mentions, VarDecl.mentions, Program.resolves_append] at h
    rw [proper_bind]
    refine ⟨proper_lookedUp_ok (hp.holdsConstructed h.1), fun constructed _ => ?_⟩
    cases constructed <;> simp
  case h_2 => exact proper_pure ()

end CFamily

namespace Context

variable {cx : Context}

theorem steady_inline (hp : cx.program.Whole) {e : Expr} (h : cx.program.Resolves e.mentions) :
    (cx.inline e).Steady := by
  simpa [inline] using proper_code hp h

theorem steady_simple (hp : cx.program.Whole) {s : Stmt} (h : cx.program.Resolves s.mentions) :
    (cx.simple s).Steady := by
  cases s with
  | eval e => exact Emit.Steady.bind (steady_inline hp h) fun _ _ => Emit.steady_put _
  | declare decl =>
      unfold simple declareLocal
      cases cx.target with
      | actionScript => exact ActionScript.steady_declareLocal hp h
      | cFamily d => exact CFamily.steady_declareLocal hp h
  | assign target op value =>
      simp only [Stmt.mentions, resolves_append] at h
      have hassign : Proper (cx.assign target op value) := by
        unfold assign
        cases cx.target with
        | actionScript => exact ActionScript.proper_assign hp op h.1 h.2
        | cFamily d => simp [CFamily.assign, proper_code hp h.1, proper_code hp h.2]
      exact Emit.Steady.bind (by simpa using hassign) fun _ _ => Emit.steady_put _
  | _ => simp [simple]

theorem steady_afterSimple (hp : cx.program.Whole) {s : Stmt}
    (h : cx.program.Resolves s.mentions) : (cx.afterSimple s).Steady := by
  unfold afterSimple
  split
  case h_1 decl =>
    simp only [Stmt.mentions, VarDecl.mentions, resolves_append] at h
    exact CFamily.steady_constructCalls hp 0 _ h.1
  case h_2 => exact Emit.steady_pure ()

theorem steady_simpleLine (hp : cx.program.Whole) {s : Stmt}
    (h : cx.program.Resolves s.mentions) : (cx.simpleLine s).Steady :=
  Emit.steady_seq (steady_simple hp h)
    (Emit.steady_seq (Emit.steady_line _) (steady_afterSimple hp h))

theorem steady_loopStart (hp : cx.program.Whole) {start : Stmt}
    (h : cx.program.Resolves start.mentions) : (cx.loopStart start).Steady := by
  unfold loopStart
  cases cx.target with
  | actionScript => exact steady_simple hp h
  | cFamily d =>
      exact Emit.steady_seq (by simpa using CFamily.proper_checkLoopStart hp h)
        (steady_simple hp h)

theorem steady_loopHead (hp : cx.program.Whole) {start : Option Stmt} {cond : Option Expr}
    {advance : Option Stmt} (hstart : ∀ s ∈ start, cx.program.Resolves s.mentions)
    (hcond : ∀ e ∈ cond, cx.program.Resolves e.mentions)
    (hadvance : ∀ s ∈ advance, cx.program.Resolves s.mentions) :
    (cx.loopHead start cond advance).Steady := by
  have hstart : (cx.startClause start).Steady := by
    cases start with
    | none => exact Emit.steady_pure ()
    | some s => exact steady_loopStart hp (hstart s rfl)
  have hcond : (cx.condClause cond).Steady := by
    cases cond with
    | none => exact Emit.steady_pure ()
    | some e =>
        exact Emit.Steady.bind (steady_inline hp (hcond e rfl)) fun _ _ => Emit.steady_put _
  have hadvance : (cx.advanceClause advance).Steady := by
    cases advance with
    | none => exact Emit.steady_pure ()
    | some s => exact Emit.steady_seq (Emit.steady_put _) (steady_simple hp (hadvance s rfl))
  rw [loopHead_eq]
  refine Emit.steady_seq (Emit.steady_put _) (Emit.steady_seq hstart ?_)
  refine Emit.steady_seq (Emit.steady_put _) (Emit.steady_seq hcond ?_)
  exact Emit.steady_seq (Emit.steady_put _) (Emit.steady_seq hadvance (Emit.steady_put _))

theorem steady_head (hp : cx.program.Whole) (keyword : String) {cond : Expr}
    (h : cx.program.Resolves cond.mentions) : (cx.head keyword cond).Steady :=
  Emit.Steady.bind (steady_inline hp h) fun _ _ => Emit.steady_put _

theorem steady_nested (s : Stmt) {printed : Emit Unit} (h : printed.Steady) :
    (nested s printed).Steady := by
  unfold nested
  split <;> simp [h]

theorem steady_alternative (s : Stmt) {printed : Emit Unit} (h : printed.Steady) :
    (alternative s printed).Steady := by
  unfold alternative
  split <;> simp [h, steady_nested]

theorem steady_returned (hp : cx.program.Whole) {value : Option Expr}
    (h : ∀ e ∈ value, cx.program.Resolves e.mentions) : (cx.returned value).Steady := by
  cases value with
  | none => exact Emit.steady_line _
  | some e => exact Emit.Steady.bind (steady_inline hp (h e rfl)) fun _ _ => Emit.steady_line _

theorem steady_thrown (hp : cx.program.Whole) {message : Expr}
    (h : cx.program.Resolves message.mentions) : (cx.thrown message).Steady := by
  unfold thrown
  cases cx.target with
  | actionScript => exact Emit.Steady.bind (steady_inline hp h) fun _ _ => Emit.steady_line _
  | cFamily d => simp

theorem steady_statements {stmts : List Stmt} (h : ∀ s ∈ stmts, (cx.statement s).Steady) :
    (cx.statements stmts).Steady := by
  induction stmts with
  | nil => exact Emit.steady_pure ()
  | cons s rest ih =>
      obtain ⟨hs, hrest⟩ := List.forall_mem_cons.mp h
      rw [statements]
      exact Emit.steady_seq hs (ih hrest)

theorem resolves_inside {p : Program} {s child : Stmt} (h : p.Resolves s.mentions)
    (hchild : child ∈ s.children) : p.Resolves child.mentions := fun id hid =>
  h id (mem_mentions_stmt.mpr (.inside hchild (mem_mentions_stmt.mp hid)))

/-- Every statement that mentions only declarations is printed in balance or refused. -/
theorem steady_statement (hp : cx.program.Whole) {s : Stmt}
    (h : cx.program.Resolves s.mentions) : (cx.statement s).Steady := by
  induction s using Stmt.inductOn with
  | h s ih =>
      have ih : ∀ child ∈ s.children, (cx.statement child).Steady := fun child hchild =>
        ih child hchild (resolves_inside h hchild)
      cases s with
      | block stmts =>
          rw [statement]
          exact (steady_statements ih).braced
      | eval e =>
          rw [statement]
          exact steady_simpleLine hp h
      | declare decl =>
          rw [statement]
          exact steady_simpleLine hp h
      | assign target op value =>
          rw [statement]
          exact steady_simpleLine hp h
      | branch cond onTrue onFalse =>
          simp only [Stmt.mentions, resolves_append] at h
          have hhead := steady_head hp "if" h.1.1
          have htrue := steady_nested onTrue (ih onTrue (by simp [Stmt.children]))
          cases onFalse with
          | none =>
              rw [statement]
              exact Emit.steady_seq hhead htrue
          | some onFalse =>
              have hfalse := steady_alternative onFalse (ih onFalse (by simp [Stmt.children]))
              rw [statement]
              exact Emit.steady_seq hhead (Emit.steady_seq htrue hfalse)
      | whileLoop cond body =>
          simp only [Stmt.mentions, resolves_append] at h
          rw [statement]
          exact Emit.steady_seq (steady_head hp "while" h.1)
            (steady_nested body (ih body (by simp [Stmt.children])))
      | doLoop body cond =>
          simp only [Stmt.mentions, resolves_append] at h
          have hbody := steady_nested body (ih body (by simp [Stmt.children]))
          rw [statement]
          refine Emit.steady_seq (Emit.steady_put _) (Emit.steady_seq hbody ?_)
          exact Emit.steady_seq (steady_head hp "while" h.1) (Emit.steady_line _)
      | forLoop start cond advance body =>
          simp only [Stmt.mentions, resolves_append, resolves_clauseMentions,
            resolves_receiverMentions] at h
          rw [statement]
          exact Emit.steady_seq (steady_loopHead hp h.1.1.1 h.1.1.2 h.1.2)
            (steady_nested body (ih body (by simp [Stmt.children])))
      | breakLoop | continueLoop | native =>
          rw [statement]
          simp
      | returnValue value =>
          rw [statement]
          exact steady_returned hp (resolves_receiverMentions.mp h)
      | _ =>
          rw [statement]
          exact steady_thrown hp h

theorem steady_body (hp : cx.program.Whole) {stmts : Block}
    (h : ∀ s ∈ stmts, cx.program.Resolves s.mentions) : (cx.body stmts).Steady :=
  (steady_statements fun s hs => steady_statement hp (h s hs)).braced

end Context

end Emitter
