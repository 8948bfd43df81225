import Emitter.Proofs.Statement.Clauses
import Emitter.Proofs.Whole.Balance
import Emitter.Generate

/-!
# Emissions keep the layout in balance

Whatever a program refers to, what is printed for it can be carried out anywhere: a look-up that
fails stops an emission, but leaves none of the blocks around it.
-/

namespace Emitter

open Layout Program Text Emit

namespace ActionScript

variable {cx : Context}

theorem plays_initializer (name : String) (ty : Ty) (value : Option Expr) :
    (initializer cx name ty value).Plays := by
  refine plays_lift _ fun implied _ => ?_
  cases implied with
  | some code => exact (plays_put _).seq (plays_ite (plays_note _) (plays_pure ()))
  | none =>
      cases value with
      | none => exact plays_pure ()
      | some e => exact plays_lift _ fun _ _ => plays_put _

theorem plays_declareLocal (decl : VarDecl) : (declareLocal cx decl).Plays :=
  plays_lift _ fun _ _ => (plays_put _).seq (plays_initializer _ _ _)

end ActionScript

namespace CFamily

variable {cx : Context} {d : Dialect}

theorem plays_constructCalls (depth : Nat) (place : Code) (ty : Ty) :
    (constructCalls cx depth place ty).Plays := by
  induction ty generalizing depth place with
  | classStorage id =>
      refine plays_lift _ fun constructed _ => ?_
      cases constructed with
      | false => exact plays_pure ()
      | true => exact plays_lift _ fun _ _ => plays_line _
  | array element storage length ih =>
      cases storage with
      | false => exact plays_pure ()
      | true =>
          refine plays_lift _ fun constructed _ => ?_
          cases constructed with
          | false => exact plays_pure ()
          | true =>
              cases length with
              | none => exact plays_liftM _
              | some n => exact (plays_line _).seq (ih _ _).indented
  | _ => exact plays_pure ()

theorem plays_declareLocal (decl : VarDecl) : (declareLocal cx d decl).Plays := by
  refine plays_lift _ fun _ _ => (plays_put _).seq ?_
  split
  · split
    · exact (plays_note _).seq (plays_put _)
    · exact (plays_pure ()).seq (plays_put _)
  · split
    · exact plays_lift _ fun _ _ => plays_put _
    · exact plays_pure ()

end CFamily

namespace Context

variable {cx : Context}

theorem plays_simple (s : Stmt) : (cx.simple s).Plays := by
  cases s with
  | eval e => exact plays_lift _ fun _ _ => plays_put _
  | declare decl =>
      change (cx.declareLocal decl).Plays
      unfold declareLocal
      split
      · exact ActionScript.plays_declareLocal decl
      · exact CFamily.plays_declareLocal decl
  | assign target op value => exact plays_lift _ fun _ _ => plays_put _
  | _ => exact plays_liftM _

theorem plays_simpleLine (s : Stmt) : (cx.simpleLine s).Plays := by
  refine (plays_simple s).seq ((plays_line _).seq ?_)
  unfold afterSimple
  split
  · exact CFamily.plays_constructCalls _ _ _
  · exact plays_pure ()

theorem plays_loopStart (start : Stmt) : (cx.loopStart start).Plays := by
  unfold loopStart
  split
  · exact (plays_pure ()).seq (plays_simple start)
  · exact plays_lift _ fun _ _ => plays_simple start

theorem plays_loopHead (start : Option Stmt) (cond : Option Expr) (advance : Option Stmt) :
    (cx.loopHead start cond advance).Plays := by
  have hstart : (cx.startClause start).Plays := by
    cases start with
    | none => exact plays_pure ()
    | some s => exact plays_loopStart s
  have hcond : (cx.condClause cond).Plays := by
    cases cond with
    | none => exact plays_pure ()
    | some e => exact plays_lift _ fun _ _ => plays_put _
  have hadvance : (cx.advanceClause advance).Plays := by
    cases advance with
    | none => exact plays_pure ()
    | some s => exact (plays_put _).seq (plays_simple s)
  rw [loopHead_eq]
  exact (plays_put _).seq (hstart.seq ((plays_put _).seq (hcond.seq ((plays_put _).seq
    (hadvance.seq (plays_put _))))))

theorem plays_head (keyword : String) (cond : Expr) : (cx.head keyword cond).Plays :=
  plays_lift _ fun _ _ => plays_put _

theorem plays_nested (s : Stmt) {printed : Emit Unit} (h : printed.Plays) :
    (nested s printed).Plays :=
  plays_ite ((plays_put _).seq h) (plays_newline.seq h.indented)

theorem plays_alternative (s : Stmt) {printed : Emit Unit} (h : printed.Plays) :
    (alternative s printed).Plays :=
  (plays_put _).seq (plays_ite ((plays_put _).seq h) (plays_nested s h))

theorem plays_statements {stmts : List Stmt} (h : ∀ s ∈ stmts, (cx.statement s).Plays) :
    (cx.statements stmts).Plays := by
  induction stmts with
  | nil => exact plays_pure ()
  | cons s rest ih =>
      obtain ⟨hs, hrest⟩ := List.forall_mem_cons.mp h
      rw [statements]
      exact hs.seq (ih hrest)

theorem plays_statement (s : Stmt) : (cx.statement s).Plays := by
  induction s using Stmt.inductOn with
  | h s ih =>
  have hnested : ∀ child ∈ s.children, (nested child (cx.statement child)).Plays :=
    fun child hchild => plays_nested child (ih child hchild)
  cases s with
  | block stmts =>
      rw [statement]
      exact (plays_statements ih).braced
  | eval e | declare decl | assign target op value =>
      rw [statement]
      exact plays_simpleLine _
  | branch cond onTrue onFalse =>
      have htrue := hnested onTrue (by simp [Stmt.children])
      cases onFalse with
      | none =>
          rw [statement]
          exact (plays_head "if" cond).seq htrue
      | some onFalse =>
          rw [statement]
          exact (plays_head "if" cond).seq (htrue.seq
            (plays_alternative onFalse (ih onFalse (by simp [Stmt.children]))))
  | whileLoop cond body =>
      rw [statement]
      exact (plays_head "while" cond).seq (hnested body (by simp [Stmt.children]))
  | doLoop body cond =>
      rw [statement]
      exact (plays_put _).seq ((hnested body (by simp [Stmt.children])).seq
        ((plays_head "while" cond).seq (plays_line _)))
  | forLoop start cond advance body =>
      rw [statement]
      exact (plays_loopHead start cond advance).seq (hnested body (by simp [Stmt.children]))
  | breakLoop | continueLoop =>
      rw [statement]
      exact plays_line _
  | returnValue value =>
      rw [statement]
      cases value with
      | none => exact plays_line _
      | some e => exact plays_lift _ fun _ _ => plays_line _
  | native text =>
      rw [statement]
      exact plays_lines text
  | _ =>
      rw [statement]
      unfold thrown
      split
      · exact plays_lift _ fun _ _ => plays_line _
      · exact plays_liftM _

theorem plays_body (stmts : Block) : (cx.body stmts).Plays :=
  (plays_statements fun s _ => plays_statement s).braced

end Context

namespace CFamily

variable {cx : Context} {d : Dialect}

theorem plays_fieldSetup (c : ClassDef) (f : FieldDef) : (fieldSetup cx c f).Plays := by
  have hcalls : (constructCalls cx 0 (selfField cx f) f.ty).Plays := plays_constructCalls _ _ _
  unfold fieldSetup
  split
  · exact plays_lift _ fun _ _ => plays_line _
  · split_ifs
    · exact (plays_note _).seq hcalls
    · exact hcalls

theorem plays_constructorBody (c : ClassDef) : (constructorBody cx c).Plays := by
  have hfields : (c.fields.forM (fieldSetup cx c)).Plays :=
    plays_forM fun f _ => plays_fieldSetup c f
  have hstmts : (cx.statements (c.constructor?.getD [])).Plays :=
    Context.plays_statements fun s _ => Context.plays_statement s
  exact plays_newline.seq ((plays_line _).seq (hfields.seq hstmts).braced)

theorem plays_methodBody (c : ClassDef) (m : MethodDef) : (methodBody cx d c m).Plays :=
  (plays_note _).seq (plays_newline.seq (plays_lift _ fun _ _ =>
    (plays_line _).seq (Context.plays_body m.body)))

theorem plays_native (text : String) : (native text).Plays := plays_newline.seq (plays_lines text)

theorem plays_enumeration (e : EnumDef) : (enumeration cx e).Plays :=
  plays_ite (plays_note _) ((plays_note _).seq (plays_newline.seq ((plays_line _).seq
    ((plays_forM fun _ _ => plays_line _).deeper.seq (plays_line _)))))

theorem plays_structLayout (c : ClassDef) : (structLayout cx d c).Plays := by
  have hfields : Emit.Plays (c.fields.forM fun f => do
      Emit.line ((← (declaration cx d f.ty (cx.localWord f.name) : Result Code)) ++
        [Lexeme.symbol ";"])) :=
    plays_forM fun _ _ => plays_lift _ fun _ _ => plays_line _
  have hunused : Emit.Plays (if c.fields.isEmpty then
      Emit.line [.word "char", .gap, .word "unused", .symbol ";"] else pure ()) :=
    plays_ite (plays_line _) (plays_pure ())
  exact (plays_note _).seq (plays_newline.seq ((plays_line _).seq
    ((hfields.seq hunused).deeper.seq (plays_line _))))

theorem plays_byteLines (rows : List (List UInt8)) : (byteLines rows).Plays := by
  induction rows with
  | nil => exact plays_pure ()
  | cons row rest ih =>
      cases rest with
      | nil => exact plays_line _
      | cons next rest => exact (plays_line _).seq ih

theorem plays_resourceTable (name : String) (bytes : List UInt8) :
    (resourceTable d name bytes).Plays :=
  plays_newline.seq ((plays_line _).seq ((plays_byteLines _).deeper.seq (plays_line _)))

theorem plays_prototypes (c : ClassDef) (constructed : Bool) :
    (prototypes cx d c constructed).Plays := by
  have hmethods : Emit.Plays (c.methods.forM fun m => do
      Emit.line ((← (signature cx d c m : Result Code)) ++ [Lexeme.symbol ";"])) :=
    plays_forM fun _ _ => plays_lift _ fun _ _ => plays_line _
  cases constructed with
  | false => exact (plays_pure ()).seq hmethods
  | true => exact (plays_line _).seq hmethods

theorem plays_bodies : (bodies cx d).Plays := by
  refine plays_lift _ fun classes _ => plays_forM fun (c, constructed) _ => ?_
  have hmethods : (c.methods.forM (methodBody cx d c)).Plays :=
    plays_forM fun m _ => plays_methodBody c m
  cases constructed with
  | false => exact (plays_pure ()).seq hmethods
  | true => exact (plays_constructorBody c).seq hmethods

theorem plays_declarations : (declarations cx d).Plays := by
  refine (plays_forM fun text _ => plays_native text).seq (plays_lift _ fun enums _ => ?_)
  refine (plays_forM fun entry _ => plays_enumeration entry.2).seq
    (plays_lift _ fun classes _ => ?_)
  refine (plays_forM fun _ _ => plays_forM fun _ _ => plays_lift _ fun _ _ =>
    plays_line _).group.seq ?_
  refine (plays_forM fun _ _ => plays_ite (plays_pure ()) (plays_line _)).group.seq ?_
  refine (plays_forM fun entry _ => plays_prototypes entry.1 entry.2).group.seq ?_
  refine plays_lift _ fun order _ => ?_
  refine (plays_forM fun id _ => plays_lift _ fun c _ => plays_structLayout c).seq ?_
  refine (plays_forM fun entry _ => plays_resourceTable entry.1 entry.2).seq ?_
  exact (plays_forM fun _ _ => plays_forM fun _ _ => plays_lift _ fun _ _ => plays_line _).group

theorem plays_includes (used : List Supplier) : (includes d used).Plays := by
  cases d with
  | standard => exact plays_forM fun _ _ => plays_line _
  | openCL => exact plays_pure ()

theorem plays_library (used : List Supplier) : (library d used).Plays := by
  cases d with
  | standard => exact plays_pure ()
  | openCL =>
      exact plays_forM fun _ _ => plays_ite (plays_newline.seq (plays_lines _)) (plays_pure ())

end CFamily

namespace ActionScript

variable {cx : Context}

theorem plays_memberLines (m : Member) : (memberLines cx m).Plays := by
  cases m with
  | field f =>
      exact plays_lift _ fun _ _ => (plays_put _).seq ((plays_initializer _ _ _).seq (plays_line _))
  | const k =>
      exact plays_ite (plays_lift _ fun _ _ => plays_lift _ fun _ _ => plays_line _) (plays_pure ())
  | method m =>
      exact plays_newline.seq (plays_lift _ fun _ _ => plays_lift _ fun _ _ =>
        (plays_line _).seq (Context.plays_body m.body))

theorem plays_constructorLines (c : ClassDef) (stmts : Block) :
    (constructorLines cx c stmts).Plays :=
  plays_newline.seq ((plays_line _).seq (Context.plays_body stmts))

theorem plays_tableLine (k : ConstDef) : (tableLine cx k).Plays :=
  plays_lift _ fun _ _ => plays_line _

theorem plays_separatedLines (texts : List String) : (separatedLines texts).Plays := by
  induction texts with
  | nil => exact plays_pure ()
  | cons text rest ih =>
      cases rest with
      | nil => exact plays_lines _
      | cons next rest => exact (plays_lines _).seq (plays_newline.seq ih)

end ActionScript

end Emitter
