import Emitter.Proofs.Names.Items
import Emitter.Proofs.Statement.Everywhere

/-!
# Names that refer to something

What holds of the names that single constructs are printed with holds of all names in a printed
item. In particular, if calls name methods of their classes and constants are found in theirs, then
the program has everything that the names in a printed item refer to.
-/

namespace Emitter

open Layout Program Text

namespace Program

/-- A call names a method of its class, and a constant is found in its class. -/
def finds (p : Program) : Expr → Bool
  | .call _ (.user owner name _) _ _ =>
    (p.classOf owner).toOption.any fun c => c.methods.any (·.name = name)
  | .const owner name _ => (p.classOf owner).toOption.any fun c => (c.findConst name).isSome
  | _ => true

end Program

namespace Layout

/-- The names that code needs the header for. -/
def Header.supplies : Header → List String
  | math => ["fabs", "sqrt"]
  | stdbool => ["bool", "false", "true"]
  | stddef => ["NULL"]
  | stdint => ["int16_t", "int64_t", "int8_t", "uint16_t", "uint8_t"]
  | stdio => ["printf"]
  | stdlib => ["abs"]
  | string => ["memmove", "memset", "strcmp", "strlen"]

/-- The name of the function. -/
def Helper.name : Helper → String
  | stringEquality => "streq"
  | stringLength => "strlen"
  | substring => "substring"
  | copyArray => "copyArray"
  | bytesToString => "bytesToString"
  | clearArray => "clearArray"
  | divideElement => "divideElement"

/-- The words that code is printed with on its own account, besides those it needs a header or a
helper for. -/
def languageWords : List String :=
  ["break", "char", "const", "constant", "continue", "define", "do", "double", "else", "enum",
    "float", "for", "h", "if", "include", "int", "long", "return", "self", "short", "sizeof",
    "static", "struct", "throw", "typedef", "uchar", "unsigned", "unused", "ushort", "void",
    "while"] ++ Header.all.map Header.stem

end Layout

/-- The names that code for the target has from the header or the helper. -/
def Target.supplied : Target → Supplier → List String
  | .cFamily .standard, .header h => h.supplies
  | .cFamily .openCL, .header h => h.supplies.filter (· ∉ ["strcmp", "strlen"])
  | .cFamily .openCL, .helper h | .actionScript, .helper h => [h.name]
  | _, _ => []

/-- The name is a word of the language, or is marked as one that a header or helper supplies, which
it is. -/
def Target.isLanguage (t : Target) : Lexeme → Bool
  | .word w => w ∈ languageWords
  | .supplied name supplier => name ∈ t.supplied supplier
  | _ => false

/-- The name is a word of the language. -/
def PrintedName.isLanguage (t : Target) : PrintedName → Bool
  | fixed l => t.isLanguage l
  | _ => false

namespace Context

/-- The property holds of the names that declarations are printed with: of the words of the
language, of coined names, of the types that are there as far as the program is whole, and of the
values of enumerations. -/
structure CoversDeclared (cx : Context) (P : PrintedName → Prop) : Prop where
  language : ∀ l, cx.target.isLanguage l = true → P (.fixed l)
  coined : ∀ word, P (.coined word)
  type : ∀ id, (cx.program.Whole → cx.program.declares (.classDef id) = true) → P (.type id)
  enumerator : ∀ id index, ∀ n ∈ PrintedName.ifPresent cx.program (.enumerator id index), P n

/-- The property also holds of the names that bodies of functions are printed with: of the functions
that construct instances, and of an expression's own names where the test holds of it. -/
structure Covers (cx : Context) (q : Expr → Bool) (P : PrintedName → Prop) : Prop
    extends CoversDeclared cx P where
  constructor : ∀ id, cx.program.constructs id = true → P (.constructor id)
  own : ∀ e, q e = true → ∀ n ∈ cx.own e, P n

variable {cx : Context} {q : Expr → Bool} {P : PrintedName → Prop}

theorem everywhere_of_mem_printedChildren {e child : Expr} (h : child ∈ cx.printedChildren e)
    (he : e.everywhere q = true) : child.everywhere q = true := by
  have hall := (Expr.everywhere_iff.mp he).2
  have hspread : ∀ args : List Expr, (∀ e ∈ args, e.everywhere q = true) →
      ∀ e ∈ spread args, e.everywhere q = true := by
    intro args hargs e he
    unfold spread at he
    split at he
    case h_1 parts suffix ty =>
      have hinside := (Expr.everywhere_iff.mp (hargs (.interpolated parts suffix ty) (by simp))).2
      exact hinside e he
    case h_2 => exact hargs e he
  cases e with
  | call receiver callee args ty =>
      cases callee with
      | user owner name isStatic =>
          refine hall child (List.mem_append.mpr ?_)
          rcases List.mem_append.mp h with h | h
          · split_ifs at h
            · simp at h
            · exact .inl h
          · exact .inr h
      | builtin m =>
          have hargs : ∀ e ∈ args, e.everywhere q = true := fun e he =>
            hall e (List.mem_append_right _ he)
          rcases List.mem_append.mp h with h | h
          · exact hall child (List.mem_append_left _ h)
          · unfold printedArgs at h
            split_ifs at h
            · exact hargs child (List.mem_of_mem_take h)
            · exact hspread args hargs child h
            · exact hargs child h
  | _ => exact hall child h

theorem Covers.names (h : cx.Covers q P) (e : Expr) (he : e.everywhere q = true) :
    ∀ n ∈ cx.names e, P n := by
  intro n hn
  rcases mem_names.mp hn with hn | ⟨child, hchild, hn⟩
  · exact h.own e (Expr.everywhere_iff.mp he).1 n hn
  · have := sizeOf_lt_of_mem_printedChildren hchild
    exact Covers.names h child (everywhere_of_mem_printedChildren hchild he) n hn
termination_by e

theorem Covers.receiverNames (h : cx.Covers q P) {value : Option Expr}
    (hvalue : ∀ e ∈ value, e.everywhere q = true) : ∀ n ∈ cx.receiverNames value, P n := by
  intro n hn
  obtain ⟨e, he, hn⟩ := mem_receiverNames.mp hn
  exact h.names e (hvalue e (Option.mem_toList.mp he)) n hn

theorem CoversDeclared.word (h : cx.CoversDeclared P) {w : String} (hw : w ∈ languageWords) :
    P (.word w) := h.language _ (decide_eq_true hw)

theorem CoversDeclared.readOnly (h : cx.CoversDeclared P) (d : Dialect) :
    P (.fixed d.readOnly) := by
  cases d <;> exact h.word (by decide)

theorem CoversDeclared.typeNames (h : cx.CoversDeclared P) {d : Dialect}
    (ht : cx.target = .cFamily d) {ty : Ty}
    (hty : cx.program.Whole → cx.program.Resolves ty.mentions) : ∀ n ∈ typeNames d ty, P n := by
  induction ty with
  | classStorage id | classRef id =>
      intro n hn
      obtain rfl := List.mem_singleton.mp hn
      exact h.type id fun hp => by simpa [Ty.mentions] using hty hp
  | array element storage length ih => exact ih hty
  | float kind =>
      cases kind <;>
      · intro n hn
        obtain rfl := List.mem_singleton.mp hn
        exact h.word (by decide)
  | string =>
      intro n hn
      simp only [Context.typeNames, List.mem_cons, List.not_mem_nil, or_false] at hn
      rcases hn with rfl | rfl
      · exact h.readOnly d
      · exact h.word (by decide)
  | null => simp [Context.typeNames]
  | int kind =>
      intro n hn
      obtain rfl := List.mem_singleton.mp hn
      exact h.language _ (by rw [ht]; cases d <;> cases kind <;> decide)
  | bool =>
      intro n hn
      obtain rfl := List.mem_singleton.mp hn
      exact h.language _ (by rw [ht]; cases d <;> decide)
  | _ =>
      intro n hn
      obtain rfl := List.mem_singleton.mp hn
      exact h.word (by decide)

theorem Covers.constructionNames (h : cx.Covers q P) (depth : Nat) {place : List PrintedName}
    (hplace : ∀ n ∈ place, P n) (ty : Ty) :
    ∀ n ∈ constructionNames cx.program depth place ty, P n := by
  induction ty generalizing depth place with
  | classStorage id =>
      intro n hn
      unfold Context.constructionNames at hn
      split at hn
      case h_1 hneeds =>
        rcases List.mem_cons.mp hn with rfl | hn
        · exact h.constructor id (by simp [Program.constructs, hneeds, Except.toOption])
        · exact hplace n hn
      case h_2 => simp at hn
  | array element storage length ih =>
      cases storage with
      | false => simp [Context.constructionNames]
      | true =>
          intro n hn
          unfold Context.constructionNames at hn
          split at hn
          case h_1 =>
            simp only [List.mem_cons] at hn
            rcases hn with rfl | rfl | rfl | hn
            · exact h.word (by decide)
            · exact h.word (by decide)
            · exact h.coined _
            · refine ih _ (fun n hn => ?_) n hn
              rcases List.mem_append.mp hn with hn | hn
              · exact hplace n hn
              · obtain rfl := List.mem_singleton.mp hn
                exact h.coined _
          case h_2 => simp at hn
  | _ => simp [Context.constructionNames]

/-- The names of a local and its initializer. -/
theorem Covers.localNames (h : cx.Covers q P) {decl : VarDecl}
    (hty : cx.program.Whole → cx.program.Resolves decl.ty.mentions)
    (hvalue : ∀ e ∈ decl.value, e.everywhere q = true) : ∀ n ∈ cx.localNames decl, P n := by
  intro n hn
  rcases List.mem_append.mp hn with hn | hn
  · unfold declaredNames at hn
    split at hn
    case h_1 => simp at hn
    case h_2 d ht =>
      rcases List.mem_append.mp hn with hn | hn
      · exact h.typeNames ht hty n hn
      · obtain rfl := List.mem_singleton.mp hn
        exact h.coined _
  · split_ifs at hn
    · simp at hn
    · exact h.receiverNames hvalue n hn

theorem Covers.simpleNames (h : cx.Covers q P) {s : Stmt}
    (hs : cx.program.Whole → cx.program.Resolves s.mentions) (he : s.everyExpr q = true) :
    ∀ n ∈ cx.simpleNames s, P n := by
  have he := (Stmt.everyExpr_iff.mp he).1
  cases s with
  | eval e => exact h.names e (he e (by simp [Stmt.exprs]))
  | declare decl =>
      exact h.localNames (fun hp => (resolves_append.mp (hs hp)).1) fun e hvalue =>
        he e (by simpa [Stmt.exprs] using hvalue)
  | assign target op value =>
      intro n hn
      rcases List.mem_append.mp hn with hn | hn
      · rcases List.mem_append.mp hn with hn | hn
        · exact h.names target (he target (by simp [Stmt.exprs])) n hn
        · exact h.names value (he value (by simp [Stmt.exprs])) n hn
      · split_ifs at hn with hhelper
        · obtain rfl := List.mem_singleton.mp hn
          exact h.language _ (by rw [hhelper.1]; decide)
        · simp at hn
  | _ => simp [Context.simpleNames]

theorem Covers.clauseNames (h : cx.Covers q P) {clause : Option Stmt}
    (hs : ∀ s ∈ clause, cx.program.Whole → cx.program.Resolves s.mentions)
    (he : ∀ s ∈ clause, s.everyExpr q = true) : ∀ n ∈ cx.clauseNames clause, P n := by
  cases clause with
  | none => simp [Context.clauseNames]
  | some s => exact h.simpleNames (hs s rfl) (he s rfl)

theorem Covers.afterNames (h : cx.Covers q P) (s : Stmt) : ∀ n ∈ cx.afterNames s, P n := by
  cases s with
  | declare decl =>
      unfold Context.afterNames
      cases cx.target with
      | actionScript => simp
      | cFamily d => exact h.constructionNames _ (by simpa using h.coined _) decl.ty
  | _ => simp [Context.afterNames]

theorem forall_blockNames {stmts : List Stmt} :
    (∀ n ∈ cx.blockNames stmts, P n) ↔ ∀ s ∈ stmts, ∀ n ∈ cx.stmtNames s, P n := by
  induction stmts with
  | nil => simp [blockNames]
  | cons s rest ih => simp [blockNames, or_imp, forall_and, ih]

theorem Covers.stmtNames (h : cx.Covers q P) (s : Stmt)
    (hs : cx.program.Whole → cx.program.Resolves s.mentions) (he : s.everyExpr q = true) :
    ∀ n ∈ cx.stmtNames s, P n := by
  induction s using Stmt.inductOn with
  | h s ih =>
  obtain ⟨hexprs, hchildren⟩ := Stmt.everyExpr_iff.mp he
  have hinside : ∀ child ∈ s.children, cx.program.Whole → cx.program.Resolves child.mentions :=
    fun child hchild hp id hid =>
      hs hp id (mem_mentions_stmt_iff.mpr (.inr (.inr ⟨child, hchild, hid⟩)))
  have ih : ∀ child ∈ s.children, ∀ n ∈ cx.stmtNames child, P n := fun child hchild =>
    ih child hchild (hinside child hchild) (hchildren child hchild)
  have hsimple := h.simpleNames hs he
  have hnames : ∀ e ∈ s.exprs, ∀ n ∈ cx.names e, P n := fun e hmem => h.names e (hexprs e hmem)
  have hreceiver : ∀ value : Option Expr, value.toList = s.exprs →
      ∀ n ∈ cx.receiverNames value, P n := fun value hvalue => h.receiverNames fun e he =>
    hexprs e (hvalue ▸ Option.mem_toList.mpr he)
  cases s with
  | block stmts =>
      rw [Context.stmtNames]
      exact forall_blockNames.mpr ih
  | eval e | declare decl | assign target op value =>
      simp only [Context.stmtNames, List.forall_mem_append]
      exact ⟨hsimple, h.afterNames _⟩
  | branch cond onTrue onFalse =>
      have hcond := hnames cond (by simp [Stmt.exprs])
      have htrue := ih onTrue (by simp [Stmt.children])
      cases onFalse with
      | none =>
          simp only [Context.stmtNames, List.forall_mem_append, List.forall_mem_cons]
          exact ⟨⟨h.word (by decide), hcond⟩, htrue⟩
      | some onFalse =>
          simp only [Context.stmtNames, List.forall_mem_append, List.forall_mem_cons]
          exact ⟨⟨⟨h.word (by decide), hcond⟩, htrue⟩, h.word (by decide),
            ih onFalse (by simp [Stmt.children])⟩
  | whileLoop cond body =>
      simp only [Context.stmtNames, List.forall_mem_append, List.forall_mem_cons]
      exact ⟨⟨h.word (by decide), hnames cond (by simp [Stmt.exprs])⟩,
        ih body (by simp [Stmt.children])⟩
  | doLoop body cond =>
      simp only [Context.stmtNames, List.forall_mem_append, List.forall_mem_cons]
      exact ⟨⟨h.word (by decide), ih body (by simp [Stmt.children])⟩, h.word (by decide),
        hnames cond (by simp [Stmt.exprs])⟩
  | forLoop start cond advance body =>
      have hclause : ∀ clause : Option Stmt, clause.toList ⊆
          (Stmt.forLoop start cond advance body).children → ∀ n ∈ cx.clauseNames clause, P n :=
        fun clause hclause => h.clauseNames
          (fun s hmem => hinside s (hclause (Option.mem_toList.mpr hmem)))
          fun s hmem => hchildren s (hclause (Option.mem_toList.mpr hmem))
      simp only [Context.stmtNames, List.forall_mem_append, List.forall_mem_cons]
      exact ⟨⟨⟨⟨h.word (by decide), hclause start (by simp [Stmt.children])⟩, hreceiver cond rfl⟩,
        hclause advance (by simp [Stmt.children])⟩, ih body (by simp [Stmt.children])⟩
  | breakLoop | continueLoop =>
      simpa [Context.stmtNames] using h.word (by decide)
  | returnValue value =>
      simp only [Context.stmtNames, List.forall_mem_cons]
      exact ⟨h.word (by decide), hreceiver value rfl⟩
  | native text => simp [Context.stmtNames]
  | _ message =>
      simp only [Context.stmtNames, List.forall_mem_cons]
      exact ⟨h.word (by decide), hnames message (by simp [Stmt.exprs])⟩

end Context

namespace CFamily

variable {cx : Context} {d : Dialect} {q : Expr → Bool} {P : PrintedName → Prop} {item : Item}
  {id : ClassId} {c : ClassDef}

theorem exists_language {t : Target} {ns : List PrintedName} {n : PrintedName} (hn : n ∈ ns)
    (h : ns.all (PrintedName.isLanguage t) = true) :
    ∃ l, t.isLanguage l = true ∧ n = .fixed l := by
  have hlanguage := List.all_eq_true.mp h n hn
  cases n with
  | fixed l => exact ⟨l, hlanguage, rfl⟩
  | _ => simp [PrintedName.isLanguage] at hlanguage

/-- The names that an expression itself is printed with are words of the language or coined names,
or refer to the function, the constant, the enumerator or the resource that the expression is
about. -/
theorem own_cases {e : Expr} {n : PrintedName} (hn : n ∈ own cx d e) :
    (∃ l, (Target.cFamily d).isLanguage l = true ∧ n = .fixed l) ∨ (∃ word, n = .coined word) ∨
      (∃ owner name ty, e = .const owner name ty ∧ n = .constant owner name) ∨
      (∃ receiver owner name isStatic args ty,
        e = .call receiver (.user owner name isStatic) args ty ∧ n = .function owner name) ∨
      (∃ id index, n ∈ PrintedName.ifPresent cx.program (.enumerator id index)) ∨
        ∃ name, n ∈ PrintedName.ifPresent cx.program (.resource name) := by
  cases e with
  | literal value ty =>
      refine .inl (exists_language hn ?_)
      cases value with
      | bool b => cases d <;> cases b <;> rfl
      | null => cases d <;> rfl
      | _ => rfl
  | var name ty | field obj name ty => exact .inr (.inl ⟨_, List.mem_singleton.mp hn⟩)
  | this ty => exact .inl (exists_language hn (by cases d <;> rfl))
  | const owner name ty => exact .inr (.inr (.inl ⟨owner, name, ty, rfl, List.mem_singleton.mp hn⟩))
  | enumValue id index ty => exact .inr (.inr (.inr (.inr (.inl ⟨id, index, hn⟩))))
  | property obj accessor ty =>
      refine .inl (exists_language hn ?_)
      cases accessor <;> cases d <;> rfl
  | call receiver callee args ty =>
      cases callee with
      | user owner name isStatic =>
          rcases List.mem_cons.mp hn with rfl | hn
          · exact .inr (.inr (.inr (.inl ⟨receiver, owner, name, isStatic, args, ty, rfl, rfl⟩)))
          · split_ifs at hn
            · exact .inl (exists_language hn (by cases d <;> decide))
            · simp at hn
      | builtin m =>
          refine .inl (exists_language hn ?_)
          cases m with
          | mathAbs | consoleWrite | consoleWriteLine =>
              simp only [own, methodNames]
              cases d <;> split_ifs <;> decide
          | _ => cases d <;> rfl
  | binary left op right ty =>
      refine .inl (exists_language hn ?_)
      simp only [own, comparisonNames]
      split_ifs
      · cases d <;> decide
      · rfl
  | resource name ty => exact .inr (.inr (.inr (.inr (.inr ⟨name, hn⟩))))
  | _ => simp [own] at hn

mutual

theorem forall_valueNames (h : cx.CoversDeclared P) (ht : cx.target = .cFamily d) :
    ∀ value, ∀ n ∈ valueNames cx.program value, P n
  | .bool b => by
      simpa [valueNames] using h.language _ (by rw [ht]; cases d <;> cases b <;> decide)
  | .enumValue id index => by
      rw [valueNames]
      exact h.enumerator id index
  | .array items => by
      rw [valueNames]
      exact forall_itemNames h ht items
  | .int _ | .float _ | .str _ => by simp [valueNames]

theorem forall_itemNames (h : cx.CoversDeclared P) (ht : cx.target = .cFamily d) :
    ∀ items, ∀ n ∈ itemNames cx.program items, P n
  | [] => by simp [itemNames]
  | item :: rest => by
      rw [itemNames, List.forall_mem_append]
      exact ⟨forall_valueNames h ht item, forall_itemNames h ht rest⟩

end

theorem forall_linkageNames (h : cx.CoversDeclared P) (visibility : Visibility) :
    ∀ n ∈ Item.linkageNames visibility, P n := by
  unfold Item.linkageNames
  split_ifs
  · simpa using h.word (by decide)
  · simp

theorem forall_declared (h : cx.CoversDeclared P) (ht : cx.target = .cFamily d) {name : String}
    {ty : Ty} (hty : cx.program.Whole → cx.program.Resolves ty.mentions) :
    ∀ n ∈ Context.typeNames d ty ++ [PrintedName.coined (cx.target.localName name)], P n := by
  rw [List.forall_mem_append]
  exact ⟨h.typeNames ht hty, by simpa using h.coined _⟩

theorem forall_constructorNames (h : cx.CoversDeclared P) (hc : cx.program.classOf id = .ok c) :
    ∀ n ∈ Item.constructorNames id c, P n := by
  simp only [Item.constructorNames, List.forall_mem_append, List.forall_mem_cons]
  exact ⟨forall_linkageNames h _, h.word (by decide), h.coined _,
    h.type id fun _ => Program.declares_of_classOf hc, h.word (by decide), by simp⟩

theorem forall_signatureNames (h : cx.CoversDeclared P) (ht : cx.target = .cFamily d)
    (hc : cx.program.classOf id = .ok c) {m : MethodDef} (hm : m ∈ c.methods) :
    ∀ n ∈ Item.signatureNames cx d id c m, P n := by
  have hmethod := fun hp : cx.program.Whole => hp.method (Program.mem_classes_of_classOf hc) hm
  simp only [Item.signatureNames, List.forall_mem_append, List.forall_mem_cons]
  refine ⟨⟨⟨forall_linkageNames h _, h.typeNames ht fun hp => (hmethod hp).1⟩, h.coined _, ?_, ?_⟩,
    ?_⟩
  · split_ifs
    · simp
    · simpa using ⟨h.type id fun _ => Program.declares_of_classOf hc, h.word (by decide)⟩
  · intro n hn
    obtain ⟨param, hparam, hn⟩ := List.mem_flatMap.mp hn
    exact forall_declared h ht (fun hp => (hmethod hp).2.1 param hparam) n hn
  · split_ifs
    · simpa using h.word (by decide)
    · simp

theorem forall_setupNames (h : cx.Covers q P) {f : FieldDef}
    (hvalue : ∀ e ∈ f.value, e.everywhere q = true) : ∀ n ∈ Item.setupNames cx f, P n := by
  have hplace : ∀ n ∈ [PrintedName.word "self", .coined (cx.target.localName f.name)], P n := by
    simpa using ⟨h.word (by decide), h.coined _⟩
  have hcalls := h.constructionNames 0 hplace f.ty
  unfold Item.setupNames
  dsimp only
  split
  case h_1 e hstorage hsome =>
    rw [List.forall_mem_append]
    exact ⟨hplace, h.names e (hvalue e hsome)⟩
  case h_2 => exact hcalls

/-- A property of the names that declarations are printed with holds of all names in an item that is
no body of a function. -/
theorem forall_names_of_not_isBody (h : cx.CoversDeclared P) (ht : cx.target = .cFamily d)
    (hof : item.Of cx.program) (hbody : item.isBody = false) : ∀ n ∈ item.names cx d, P n := by
  have hclass : ∀ {id : ClassId} {c : ClassDef}, cx.program.classOf id = .ok c →
      c ∈ cx.program.classes := Program.mem_classes_of_classOf
  have hstorage : ∀ n ∈ Item.storageNames d, P n := by
    cases d with
    | standard => simpa [Item.storageNames] using h.word (by decide)
    | openCL => simp [Item.storageNames]
  cases item with
  | header header =>
      simp only [Item.names, List.forall_mem_cons]
      exact ⟨h.word (by decide), h.word (by cases header <;> decide),
        h.word (by decide), by simp⟩
  | typedef id c =>
      simp only [Item.names, List.forall_mem_cons]
      exact ⟨h.word (by decide), h.word (by decide), h.coined _, by simp [h.coined]⟩
  | native | helper => simp [Item.names]
  | enumeration e =>
      simp only [Item.names]
      split_ifs
      · simp
      · simp only [List.forall_mem_cons, List.forall_mem_map]
        exact ⟨h.word (by decide), fun _ _ => h.coined _⟩
  | definition c k =>
      simp only [Item.names, List.forall_mem_cons]
      exact ⟨h.word (by decide), h.coined _, forall_valueNames h ht k.value⟩
  | constructorPrototype id c => exact forall_constructorNames h hof
  | prototype id c m => exact forall_signatureNames h ht hof.1 hof.2
  | layout id c =>
      simp only [Item.names, List.forall_mem_append, List.forall_mem_cons]
      refine ⟨⟨h.word (by decide), h.coined _, fun n hn => ?_⟩, ?_⟩
      · obtain ⟨f, hf, hn⟩ := List.mem_flatMap.mp hn
        exact forall_declared h ht (fun hp => (hp.field (hclass hof) hf).1) n hn
      · split_ifs
        · simpa using ⟨h.word (by decide), h.word (by decide)⟩
        · simp
  | resource name bytes =>
      simp only [Item.names, List.forall_mem_append]
      exact ⟨hstorage, by
        simpa using ⟨h.readOnly d, h.word (by decide),
          h.word (by decide), h.coined _⟩⟩
  | table c k =>
      have hk : cx.program.Whole → cx.program.Resolves k.ty.mentions := fun hp =>
        (resolves_append.mp (hp.table hof.1 hof.2)).1
      have helement : ∀ n ∈ Item.elementNames d k.ty, P n := by
        unfold Item.elementNames
        split
        case h_1 element storage length hty =>
          rw [hty] at hk
          exact h.typeNames ht hk
        case h_2 => simp
      simp only [Item.names, List.forall_mem_append, List.forall_mem_cons]
      exact ⟨⟨hstorage, h.readOnly d, helement⟩, h.coined _,
        forall_valueNames h ht k.value⟩
  | constructor | method => simp [Item.isBody] at hbody

/-- A property of the names of single constructs holds of all names in an item. -/
theorem forall_names (h : cx.Covers q P) (ht : cx.target = .cFamily d)
    (hq : cx.program.everyExpr q = true) (hof : item.Of cx.program) :
    ∀ n ∈ item.names cx d, P n := by
  have hclass : ∀ {id : ClassId} {c : ClassDef}, cx.program.classOf id = .ok c →
      c ∈ cx.program.classes := Program.mem_classes_of_classOf
  have hstmts : ∀ {stmts : List Stmt},
      (cx.program.Whole → ∀ s ∈ stmts, cx.program.Resolves s.mentions) →
        (∀ s ∈ stmts, s.everyExpr q = true) → ∀ n ∈ cx.blockNames stmts, P n := fun hs he =>
    Context.forall_blockNames.mpr fun s hmem => h.stmtNames s (fun hp => hs hp s hmem) (he s hmem)
  cases item with
  | constructor id c =>
      obtain ⟨hfields, hconstructor, -⟩ := Program.everyExpr_iff.mp hq c (hclass hof)
      simp only [Item.names, List.forall_mem_append]
      refine ⟨⟨forall_constructorNames h.toCoversDeclared hof, fun n hn => ?_⟩,
        hstmts (fun hp => hp.constructor (hclass hof)) hconstructor⟩
      obtain ⟨f, hf, hn⟩ := List.mem_flatMap.mp hn
      exact forall_setupNames h (hfields f hf) n hn
  | method id c m =>
      obtain ⟨-, -, hmethods⟩ := Program.everyExpr_iff.mp hq c (hclass hof.1)
      simp only [Item.names, List.forall_mem_append]
      exact ⟨forall_signatureNames h.toCoversDeclared ht hof.1 hof.2,
        hstmts (fun hp => (hp.method (hclass hof.1) hof.2).2.2) (hmethods m hof.2)⟩
  | _ => exact forall_names_of_not_isBody h.toCoversDeclared ht hof rfl

end CFamily

end Emitter
