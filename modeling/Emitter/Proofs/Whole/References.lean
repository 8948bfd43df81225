import Emitter.Program.Mention
import Emitter.Proofs.Expression.Everywhere
import Emitter.Proofs.Statement.Children

/-!
# Where references stand in a program

A reference occurs among the top-level symbols, in a declared type, in the type of an expression, in
an expression, or in the value of a constant. The search for a dangling one goes through exactly
these places.
-/

namespace Emitter.Program

inductive Ty.Refers : Ty → SymbolId → Prop
  | enumeration (id : EnumId) : Refers (.enumeration id) (.enumeration id)
  | classStorage (id : ClassId) : Refers (.classStorage id) (.classDef id)
  | classRef (id : ClassId) : Refers (.classRef id) (.classDef id)
  | element {element : Ty} {storage : Bool} {length : Option UInt32} {id : SymbolId}
      (h : Refers element id) : Refers (.array element storage length) id

inductive ConstValue.Refers : ConstValue → SymbolId → Prop
  | enumValue (id : EnumId) (index : UInt64) : Refers (.enumValue id index) (.enumeration id)
  | item {items : List ConstValue} {item : ConstValue} {id : SymbolId} (hmem : item ∈ items)
      (h : Refers item id) : Refers (.array items) id

inductive Expr.Refers : Expr → SymbolId → Prop
  | type {e : Expr} {id : SymbolId} (h : e.ty.Refers id) : Refers e id
  | const (owner : ClassId) (name : String) (ty : Ty) :
      Refers (.const owner name ty) (.classDef owner)
  | enumValue (id : EnumId) (index : UInt64) (ty : Ty) :
      Refers (.enumValue id index ty) (.enumeration id)
  | callee (receiver : Option Expr) (owner : ClassId) (name : String) (isStatic : Bool)
      (args : List Expr) (ty : Ty) :
      Refers (.call receiver (.user owner name isStatic) args ty) (.classDef owner)
  | operand {e child : Expr} {id : SymbolId} (hmem : child ∈ e.children) (h : Refers child id) :
      Refers e id

inductive Stmt.Refers : Stmt → SymbolId → Prop
  | expr {s : Stmt} {e : Expr} {id : SymbolId} (hmem : e ∈ s.exprs) (h : e.Refers id) : Refers s id
  | localType {decl : VarDecl} {id : SymbolId} (h : decl.ty.Refers id) : Refers (.declare decl) id
  | inside {s child : Stmt} {id : SymbolId} (hmem : child ∈ s.children) (h : Refers child id) :
      Refers s id

def ConstDef.Refers (k : ConstDef) (id : SymbolId) : Prop := k.ty.Refers id ∨ k.value.Refers id

def Member.Refers (id : SymbolId) : Member → Prop
  | .field f => f.ty.Refers id ∨ ∃ e ∈ f.value, e.Refers id
  | .const k => k.Refers id
  | .method m =>
    m.returnType.Refers id ∨ (∃ p ∈ m.params, p.ty.Refers id) ∨ ∃ s ∈ m.body, s.Refers id

def ClassDef.Refers (c : ClassDef) (id : SymbolId) : Prop :=
  (∃ stmts ∈ c.constructor?, ∃ s ∈ stmts, s.Refers id) ∨ (∃ m ∈ c.members, m.Refers id) ∨
    ∃ k ∈ c.constArrays, k.Refers id

/-- The reference occurs somewhere in the program, be it in a class that no top-level symbol
names. -/
def Refers (p : Program) (id : SymbolId) : Prop :=
  id ∈ p.globals ∨ ∃ c ∈ p.classes, c.Refers id

/-! The search for dangling ids is a traversal of its own, compared here with the places of
references one constructor after the other. -/

variable {id : SymbolId}

theorem mem_mentions_ty {ty : Ty} : id ∈ ty.mentions ↔ ty.Refers id := by
  induction ty with
  | array element storage length ih =>
      rw [Ty.mentions, ih]
      exact ⟨.element, fun h => by cases h; assumption⟩
  | enumeration e =>
      simp only [Ty.mentions, List.mem_singleton]
      exact ⟨fun h => h ▸ .enumeration e, fun h => by cases h; rfl⟩
  | classStorage c =>
      simp only [Ty.mentions, List.mem_singleton]
      exact ⟨fun h => h ▸ .classStorage c, fun h => by cases h; rfl⟩
  | classRef c =>
      simp only [Ty.mentions, List.mem_singleton]
      exact ⟨fun h => h ▸ .classRef c, fun h => by cases h; rfl⟩
  | _ => exact ⟨nofun, nofun⟩

mutual

theorem mem_mentions_constValue : ∀ {value : ConstValue}, id ∈ value.mentions ↔ value.Refers id
  | .enumValue e index => by
    simp only [ConstValue.mentions, List.mem_singleton]
    exact ⟨fun h => h ▸ .enumValue e index, fun h => by cases h; rfl⟩
  | .array items => by
    rw [ConstValue.mentions, mem_itemMentions]
    exact ⟨fun ⟨item, hmem, h⟩ => .item hmem h, fun h => by cases h; exact ⟨_, ‹_›, ‹_›⟩⟩
  | .int _ | .float _ | .bool _ | .str _ => ⟨nofun, nofun⟩

theorem mem_itemMentions : ∀ {items : List ConstValue},
    id ∈ itemMentions items ↔ ∃ item ∈ items, item.Refers id
  | [] => by simp [itemMentions]
  | item :: rest => by
    simp [itemMentions, mem_mentions_constValue, mem_itemMentions]

end

theorem mem_receiverMentions {receiver : Option Expr} :
    id ∈ receiverMentions receiver ↔ ∃ e ∈ receiver, id ∈ e.mentions := by
  cases receiver <;> simp [receiverMentions]

theorem mem_argMentions {args : List Expr} :
    id ∈ argMentions args ↔ ∃ e ∈ args, id ∈ e.mentions := by
  induction args with
  | nil => simp [argMentions]
  | cons e rest ih => simp [argMentions, ih]

theorem mem_partMentions {parts : List Part} :
    id ∈ partMentions parts ↔ ∃ e ∈ parts.map Part.arg, id ∈ e.mentions := by
  induction parts with
  | nil => simp [partMentions]
  | cons part rest ih =>
      cases part
      simp [partMentions, ih, Part.arg]

/-- What an expression mentions is mentioned by its type, by itself or by an operand. -/
theorem mem_mentions_expr_of_refers {e : Expr} (h : e.Refers id) : id ∈ e.mentions := by
  induction h with
  | @type e id h =>
      have h := mem_mentions_ty.mpr h
      cases e <;> simp_all [Expr.mentions, Expr.ty]
  | const | enumValue | callee => simp [Expr.mentions, Callee.mentions]
  | @operand e child id hmem h ih =>
      cases e with
      | call receiver callee args ty =>
          simp only [Expr.children, List.mem_append, Option.mem_toList] at hmem
          simp only [Expr.mentions, List.mem_append, mem_receiverMentions, mem_argMentions]
          rcases hmem with hmem | hmem
          · exact .inl (.inr ⟨child, hmem, ih⟩)
          · exact .inr ⟨child, hmem, ih⟩
      | interpolated parts suffix ty =>
          simp only [Expr.mentions, List.mem_append, mem_partMentions]
          exact .inr ⟨child, hmem, ih⟩
      | _ =>
          simp only [Expr.children, List.mem_cons, List.not_mem_nil, or_false] at hmem <;>
            simp only [Expr.mentions, List.mem_append] <;> grind

theorem refers_of_mem_mentions_expr {e : Expr} (h : id ∈ e.mentions) : e.Refers id := by
  induction e using Expr.inductOn with
  | h e ih =>
      have htype : ∀ {ty : Ty}, ty = e.ty → id ∈ ty.mentions → e.Refers id := fun hty hmem =>
        .type (mem_mentions_ty.mp (hty ▸ hmem))
      have hoperand : ∀ child ∈ e.children, id ∈ child.mentions → e.Refers id :=
        fun child hchild hmem => .operand hchild (ih child hchild hmem)
      cases e with
      | literal | var | this | resource => exact htype rfl h
      | const owner name ty =>
          simp only [Expr.mentions, List.mem_append, List.mem_singleton] at h
          rcases h with h | rfl
          · exact htype rfl h
          · exact .const owner name ty
      | enumValue e index ty =>
          simp only [Expr.mentions, List.mem_append, List.mem_singleton] at h
          rcases h with h | rfl
          · exact htype rfl h
          · exact .enumValue e index ty
      | call receiver callee args ty =>
          simp only [Expr.mentions, List.mem_append, mem_receiverMentions, mem_argMentions] at h
          rcases h with ((h | h) | ⟨child, hchild, h⟩) | ⟨child, hchild, h⟩
          · exact htype rfl h
          · cases callee with
            | builtin m => simp [Callee.mentions] at h
            | user owner name isStatic =>
                obtain rfl : id = .classDef owner := by simpa [Callee.mentions] using h
                exact .callee ..
          · exact hoperand child (List.mem_append_left _ (Option.mem_toList.mpr hchild)) h
          · exact hoperand child (List.mem_append_right _ hchild) h
      | interpolated parts suffix ty =>
          simp only [Expr.mentions, List.mem_append, mem_partMentions] at h
          rcases h with h | ⟨child, hchild, h⟩
          · exact htype rfl h
          · exact hoperand child hchild h
      | field obj | property obj | unary _ obj =>
          simp only [Expr.mentions, List.mem_append] at h
          rcases h with h | h
          · exact htype rfl h
          · exact hoperand obj (by simp [Expr.children]) h
      | index first second | binary first _ second =>
          simp only [Expr.mentions, List.mem_append] at h
          rcases h with (h | h) | h
          · exact htype rfl h
          · exact hoperand first (by simp [Expr.children]) h
          · exact hoperand second (by simp [Expr.children]) h
      | select cond onTrue onFalse ty =>
          simp only [Expr.mentions, List.mem_append] at h
          rcases h with ((h | h) | h) | h
          · exact htype rfl h
          · exact hoperand cond (by simp [Expr.children]) h
          · exact hoperand onTrue (by simp [Expr.children]) h
          · exact hoperand onFalse (by simp [Expr.children]) h

theorem mem_mentions_expr {e : Expr} : id ∈ e.mentions ↔ e.Refers id :=
  ⟨refers_of_mem_mentions_expr, mem_mentions_expr_of_refers⟩

theorem mem_clauseMentions {clause : Option Stmt} :
    id ∈ clauseMentions clause ↔ ∃ s ∈ clause, id ∈ s.mentions := by
  cases clause <;> simp [clauseMentions]

theorem mem_blockMentions {stmts : List Stmt} :
    id ∈ blockMentions stmts ↔ ∃ s ∈ stmts, id ∈ s.mentions := by
  induction stmts with
  | nil => simp [blockMentions]
  | cons s rest ih => simp [blockMentions, ih]

/-- What a statement mentions is mentioned by an expression, a type or a statement in it. -/
theorem mem_mentions_stmt_iff {s : Stmt} : id ∈ s.mentions ↔
    (∃ e ∈ s.exprs, id ∈ e.mentions) ∨ (∃ decl, s = .declare decl ∧ id ∈ decl.ty.mentions) ∨
      ∃ child ∈ s.children, id ∈ child.mentions := by
  cases s with
  | declare decl =>
      simp [Stmt.mentions, VarDecl.mentions, Stmt.exprs, Stmt.children, mem_receiverMentions,
        or_comm]
  | _ =>
      simp [Stmt.mentions, Stmt.exprs, Stmt.children, mem_receiverMentions, mem_clauseMentions,
        mem_blockMentions, or_and_right, exists_or] <;> grind

theorem mem_mentions_stmt {s : Stmt} : id ∈ s.mentions ↔ s.Refers id := by
  induction s using Stmt.inductOn with
  | h s ih =>
      rw [mem_mentions_stmt_iff]
      constructor
      · rintro (⟨e, hmem, h⟩ | ⟨decl, rfl, h⟩ | ⟨child, hmem, h⟩)
        · exact .expr hmem (mem_mentions_expr.mp h)
        · exact .localType (mem_mentions_ty.mp h)
        · exact .inside hmem ((ih child hmem).mp h)
      · intro h
        cases h with
        | expr hmem h => exact .inl ⟨_, hmem, mem_mentions_expr.mpr h⟩
        | localType h => exact .inr (.inl ⟨_, rfl, mem_mentions_ty.mpr h⟩)
        | inside hmem h => exact .inr (.inr ⟨_, hmem, (ih _ hmem).mpr h⟩)

theorem mem_mentions_constDef {k : ConstDef} : id ∈ k.mentions ↔ k.Refers id := by
  simp [ConstDef.mentions, ConstDef.Refers, mem_mentions_ty, mem_mentions_constValue]

theorem mem_mentions_member {m : Member} : id ∈ m.mentions ↔ m.Refers id := by
  cases m with
  | field f =>
      simp [Member.mentions, Member.Refers, mem_mentions_ty, mem_receiverMentions,
        mem_mentions_expr]
  | const k => exact mem_mentions_constDef
  | method m =>
      simp [Member.mentions, Member.Refers, mem_mentions_ty, mem_blockMentions, mem_mentions_stmt]

theorem mem_mentions_classDef {c : ClassDef} : id ∈ c.mentions ↔ c.Refers id := by
  cases h : c.constructor? <;>
    simp [ClassDef.mentions, ClassDef.Refers, h, mem_blockMentions, mem_mentions_stmt,
      mem_mentions_member, mem_mentions_constDef]

theorem mem_mentions {p : Program} : id ∈ p.mentions ↔ p.Refers id := by
  simp [mentions, Refers, mem_mentions_classDef]

/-- No dangling reference is found exactly if every reference that occurs points at a
declaration. -/
theorem findDangling_eq_none_iff {p : Program} :
    p.findDangling = none ↔ ∀ id, p.Refers id → p.declares id = true := by
  simp [findDangling, List.find?_eq_none, mem_mentions]

end Emitter.Program
