import Emitter.Proofs.Brackets.Reader
import Emitter.Proofs.Whole.Expressions

/-!
# Brackets in printed expressions

Where the names of a program have no brackets and quotes in them, the code of every expression
closes the brackets that it opens and no others, whatever its texts hold.
-/

namespace Emitter

open Brackets Layout Number Program Text

section Results

variable {α β : Type} {P : α → Prop} {Q : β → Prop} {r : Result α}

/-- What the result is, if there is one, has the property. -/
def Yields (r : Result α) (P : α → Prop) : Prop := ∀ a, r = .ok a → P a

theorem yields_pure {a : α} (h : P a) : Yields (pure a) P := fun _ ha => Except.ok.inj ha ▸ h

theorem yields_error (fault : Fault) : Yields (.error fault : Result α) P := nofun

theorem Yields.bind {next : α → Result β} (h : Yields r P) (hnext : ∀ a, P a → Yields (next a) Q) :
    Yields (r >>= next) Q := fun b hb => by
  obtain ⟨a, ha, hb⟩ := Result.bind_eq_ok.mp hb
  exact hnext a (h a ha) b hb

theorem yields_bind {next : α → Result β} (h : ∀ a, r = .ok a → Yields (next a) Q) :
    Yields (r >>= next) Q := Yields.bind (fun _ ha => ha) h

theorem yields_mapM {f : α → Result β} {items : List α} (h : ∀ item ∈ items, Yields (f item) Q) :
    Yields (items.mapM f) fun found => ∀ b ∈ found, Q b := by
  induction items with
  | nil => exact yields_pure (by simp)
  | cons item rest ih =>
      obtain ⟨hitem, hrest⟩ := List.forall_mem_cons.mp h
      rw [List.mapM_cons]
      exact hitem.bind fun b hb => (ih hrest).bind fun others hothers =>
        yields_pure (List.forall_mem_cons.mpr ⟨hb, hothers⟩)

end Results

namespace Program

/-- The name that an expression is printed with. -/
def Expr.name? : Expr → Option String
  | .var name _ | .const _ name _ | .field _ name _ | .call _ (.user _ name _) _ _ => some name
  | _ => none

/-- No name in the expression has brackets or quotes in it. -/
def Expr.isUnmarked (e : Expr) : Bool :=
  e.everywhere fun e => decide (∀ name ∈ e.name?, Unmarked name)

/-- The name or target code that a statement is printed with itself. -/
def Stmt.text? : Stmt → Option String
  | .declare decl => some decl.name
  | .native text => some text
  | _ => none

/-- No name and no target code in the statement has brackets or quotes in it. -/
def Stmt.isUnmarked (s : Stmt) : Bool :=
  s.everywhere fun s => decide (∀ text ∈ s.text?, Unmarked text) && s.exprs.all Expr.isUnmarked

/-- The names of a constant. -/
def ConstDef.IsUnmarked (k : ConstDef) : Prop :=
  Unmarked k.name ∧ ∀ name ∈ k.globalName, Unmarked name

/-- No name and no target code in the program has brackets or quotes in it. Resources may be called
anything. -/
structure IsUnmarked (p : Program) : Prop where
  native : ∀ text ∈ p.natives, Unmarked text
  enum : ∀ e ∈ p.enums, Unmarked e.name ∧ ∀ value ∈ e.values, Unmarked value.name
  className : ∀ c ∈ p.classes, Unmarked c.name
  field : ∀ c ∈ p.classes, ∀ f ∈ c.fields, Unmarked f.name ∧ ∀ e ∈ f.value, e.isUnmarked = true
  const : ∀ c ∈ p.classes, ∀ k ∈ c.consts ++ c.constArrays, k.IsUnmarked
  constructor : ∀ c ∈ p.classes, ∀ s ∈ c.constructor?.getD [], s.isUnmarked = true
  method : ∀ c ∈ p.classes, ∀ m ∈ c.methods,
    Unmarked m.name ∧ (∀ q ∈ m.params, Unmarked q.name) ∧ ∀ s ∈ m.body, s.isUnmarked = true

variable {e : Expr} {s : Stmt}

theorem Expr.isUnmarked_iff : e.isUnmarked = true ↔
    (∀ name ∈ e.name?, Unmarked name) ∧ ∀ child ∈ e.children, child.isUnmarked = true := by
  rw [Expr.isUnmarked, Expr.everywhere_iff, decide_eq_true_eq]
  rfl

theorem Stmt.isUnmarked_iff : s.isUnmarked = true ↔ (∀ text ∈ s.text?, Unmarked text) ∧
    (∀ e ∈ s.exprs, e.isUnmarked = true) ∧ ∀ child ∈ s.children, child.isUnmarked = true := by
  rw [Stmt.isUnmarked, Stmt.everywhere_iff, Bool.and_eq_true, decide_eq_true_eq, List.all_eq_true,
    and_assoc]
  rfl

theorem ConstDef.IsUnmarked.emittedName {k : ConstDef} (h : k.IsUnmarked) :
    Unmarked k.emittedName := by
  unfold ConstDef.emittedName
  cases hname : k.globalName with
  | none => exact h.1
  | some name => exact h.2 name hname

end Program

namespace Operand

variable {o left right : Operand}

/-- The operand's code, if it has any, is nested. -/
def IsNested (o : Operand) : Prop := Yields o.code Code.Nested

theorem IsNested.parenthesized (h : o.IsNested) : Yields o.parenthesized Code.Nested := by
  intro code hc
  obtain ⟨inner, hinner, rfl⟩ := Result.map_eq_ok.mp hc
  exact (h inner hinner).parenthesized

theorem IsNested.atLeast (h : o.IsNested) (least : Priority) :
    Yields (o.atLeast least) Code.Nested := by
  unfold Operand.atLeast
  split_ifs
  · exact h.parenthesized
  · exact h

theorem IsNested.above (h : o.IsNested) (bound : Priority) :
    Yields (o.above bound) Code.Nested := by
  unfold Operand.above
  split_ifs
  · exact h.parenthesized
  · exact h

theorem unmarked_binaryText (op : BinaryOp) : Unmarked op.text := by
  cases op <;> decide

theorem unmarked_unaryText (op : UnaryOp) : Unmarked op.text := by
  cases op <;> decide

theorem nested_infixed (op : BinaryOp) (hl : left.IsNested) (hr : right.IsNested) :
    Yields (left.infixed op right) Code.Nested :=
  (hl.atLeast _).bind fun _ hfirst => (hr.above _).bind fun _ hsecond =>
    yields_pure ((hfirst.append (.operator (unmarked_binaryText op))).append hsecond)

theorem nested_indexed (hl : left.IsNested) (hr : right.IsNested) :
    Yields (left.indexed right) Code.Nested :=
  (hl.atLeast _).bind fun _ hfirst => Yields.bind hr fun _ hsecond => yields_pure fun awaited => by
    simp [hfirst.nest_append, hsecond.nest_append]

theorem nested_arguments {args : List Operand} (h : ∀ o ∈ args, o.IsNested) :
    Yields (arguments args) Code.Nested :=
  (yields_mapM fun o ho => (h o ho).atLeast .argument).bind fun _ hpieces =>
    yields_pure (Code.Nested.commaSeparated hpieces).parenthesized

theorem nested_unary (op : UnaryOp) (h : o.IsNested) :
    Yields (Context.unary op o) Code.Nested := by
  have hflat : (Lexeme.symbol op.text).isFlat = true := decide_eq_true (unmarked_unaryText op)
  unfold Context.unary
  split_ifs
  · exact (h.atLeast _).bind fun _ hbase => yields_pure (hbase.append (.flat hflat .nil))
  · unfold Operand.prefixed
    split_ifs
    · exact h.parenthesized.bind fun _ hbase => yields_pure (Code.Nested.flat hflat hbase)
    · exact (h.atLeast _).bind fun _ hbase => yields_pure (Code.Nested.flat hflat hbase)

end Operand

namespace Context

variable {cx : Context}

theorem nested_integer (n : Int) : (Code.integer n).Nested := by
  unfold Code.integer
  split_ifs
  · exact .of_isFlat (by simp +decide)
  · exact .of_isFlat (by simp)

theorem nested_finiteFloat (x : Binary64) : (finiteFloat x).Nested := by
  have hmagnitude : Unmarked x.magnitudeText :=
    unmarked_of_isNumber (Reading.isNumeral_magnitudeText x).number
  unfold finiteFloat
  split_ifs
  · exact .of_isFlat (by simp +decide [Lexeme.isFlat, hmagnitude])
  · exact .of_isFlat (by simp [Lexeme.isFlat, hmagnitude])

theorem nested_float (x : Binary64) : Yields (cx.float x) Code.Nested := by
  unfold float
  split
  · split_ifs
    · exact yields_pure (.of_isFlat (by decide))
    · exact yields_pure (.of_isFlat (by decide))
    · exact yields_pure (.of_isFlat (by decide))
    · exact yields_pure (nested_finiteFloat x)
  · split_ifs
    · exact yields_pure (nested_finiteFloat x)
    · exact yields_error _

theorem nested_truth (b : Bool) : (cx.truth b).Nested := by
  unfold truth
  cases b <;> cases cx.target <;> exact .of_isFlat (by simp +decide [Lexeme.isFlat])

theorem nested_null : cx.null.Nested := by
  unfold null
  split <;> exact .of_isFlat (by decide)

theorem nested_quoted (text : String) : Code.Nested [.quoted text] :=
  .of_isFlat (by simp [Lexeme.isFlat])

theorem nested_literal (value : Literal) : Yields (cx.literal value) Code.Nested := by
  cases value with
  | int n => exact yields_pure (nested_integer _)
  | float x => exact nested_float x
  | bool b => exact yields_pure (nested_truth b)
  | str s => exact yields_pure (nested_quoted s)
  | null => exact yields_pure nested_null

theorem mem_enums_of_enumOf {id : EnumId} {e : EnumDef} (h : cx.enumOf id = .ok e) :
    e ∈ cx.program.enums := List.mem_of_getElem? (enumOf_eq_ok h)

theorem nested_enumValue (hp : cx.program.IsUnmarked) (id : EnumId) (index : UInt64) :
    Yields (cx.enumValue id index) Code.Nested := by
  refine yields_bind fun e he => ?_
  obtain ⟨hname, hvalues⟩ := hp.enum e (mem_enums_of_enumOf he)
  split
  case h_1 => exact yields_error _
  case h_2 value hvalue =>
    have hvalue := (hvalues value (List.mem_of_getElem? hvalue)).upperSnakeCase
    split
    · exact yields_pure (.of_isFlat (by simp +decide [Lexeme.isFlat, hname, hvalue]))
    · exact yields_pure (.of_isFlat (by
        simp [Lexeme.isFlat, (hname.append (by decide : Unmarked "_")).append hvalue]))

theorem nested_table {items : Code} (h : items.Nested) :
    (cx.table items).Nested := fun awaited => by
  unfold table
  cases cx.target <;> simp +decide [h.nest_append]

mutual

theorem nested_constValue (hp : cx.program.IsUnmarked) :
    ∀ value : ConstValue, Yields (cx.constValue value) Code.Nested
  | .int _ => yields_pure (nested_integer _)
  | .float x => nested_float x
  | .bool b => yields_pure (nested_truth b)
  | .str s => yields_pure (nested_quoted s)
  | .enumValue id index => nested_enumValue hp id index
  | .array items => (nested_constItems hp items).bind fun _ hpieces =>
    yields_pure (nested_table (Code.Nested.commaSeparated hpieces))

theorem nested_constItems (hp : cx.program.IsUnmarked) : ∀ items : List ConstValue,
    Yields (cx.constItems items) fun pieces => ∀ piece ∈ pieces, piece.Nested
  | [] => yields_pure (by simp)
  | item :: rest => (nested_constValue hp item).bind fun _ hfirst =>
    (nested_constItems hp rest).bind fun _ hothers =>
      yields_pure (List.forall_mem_cons.mpr ⟨hfirst, hothers⟩)

end

theorem nested_word {w : String} (h : Unmarked w) : Code.Nested [.word w] :=
  .of_isFlat (by simp [Lexeme.isFlat, h])

theorem nested_classPrefix (hp : cx.program.IsUnmarked) (id : ClassId) :
    Yields (ActionScript.classPrefix cx id) Code.Nested := by
  unfold ActionScript.classPrefix
  split_ifs
  · exact yields_pure .nil
  · refine yields_bind fun c hc => yields_pure (.of_isFlat ?_)
    simp +decide [Lexeme.isFlat, hp.className c (mem_classes_of_classOf hc)]

theorem unmarked_findConst (hp : cx.program.IsUnmarked) {c : ClassDef}
    (hc : c ∈ cx.program.classes) {name : String} (h : Unmarked name) :
    Unmarked (((c.findConst name).map ConstDef.emittedName).getD name) := by
  cases hfound : c.findConst name with
  | none => exact h
  | some k => exact (hp.const c hc k (List.mem_of_find?_eq_some hfound)).emittedName

theorem nested_constant (hp : cx.program.IsUnmarked) (owner : ClassId) {name : String}
    (h : Unmarked name) : Yields (cx.constant owner name) Code.Nested := by
  unfold constant
  split
  · refine yields_bind fun c hc => ?_
    split
    · refine (nested_constValue hp _).bind fun value hvalue => yields_pure ?_
      split_ifs
      · exact hvalue.parenthesized
      · exact hvalue
    · have hname := (unmarked_findConst hp (mem_classes_of_classOf hc) h).upperSnakeCase
      exact (nested_classPrefix hp owner).bind fun _ hqualifier =>
        yields_pure (hqualifier.append (nested_word hname))
  · refine yields_bind fun c hc => yields_pure (nested_word ?_)
    have hclass := mem_classes_of_classOf hc
    exact (hp.className c hclass).constName (unmarked_findConst hp hclass h)

theorem isFlat_localWord {name : String} (h : Unmarked name) : (cx.localWord name).isFlat = true :=
  Lexeme.isFlat_word (h.localName _)

variable {obj left right : Operand}

theorem nested_field {name : String} (h : obj.IsNested) (hname : Unmarked name) :
    Yields (cx.field obj name) Code.Nested := by
  have hword : (cx.localWord name).isFlat = true := isFlat_localWord hname
  unfold field
  split
  · exact (h.atLeast _).bind fun _ hbase => yields_pure (hbase.append (.of_isFlat (by
      simp +decide [hword])))
  · refine (h.atLeast _).bind fun _ hbase => yields_pure (hbase.append (.of_isFlat ?_))
    split <;> simp +decide [hword]

theorem isFlat_intType (d : Dialect) (kind : IntKind) : (d.intType kind).isFlat = true := by
  cases d <;> cases kind <;> decide

theorem nested_cast {type : Code} (htype : type.Nested) (h : obj.IsNested) :
    Yields (CFamily.cast type obj) Code.Nested :=
  (h.atLeast _).bind fun _ hbase =>
    yields_pure (htype.parenthesized.append (Code.Nested.flat rfl hbase))

theorem nested_property (accessor : BuiltinProperty) (h : obj.IsNested) :
    Yields (cx.property accessor obj) Code.Nested := by
  unfold property
  split
  · cases accessor with
    | signExtendByte =>
        refine (h.atLeast _).bind fun _ hbase => yields_pure fun awaited => ?_
        simp +decide [hbase.nest_append, Code.operator]
    | lowByte =>
        refine (h.atLeast _).bind fun _ hbase => yields_pure fun awaited => ?_
        simp +decide [hbase.nest_append, Code.operator]
    | stringLength =>
        refine (h.atLeast _).bind fun _ hbase => yields_pure fun awaited => ?_
        simp +decide [hbase.nest_append]
  · rename_i d _
    have hkind : ∀ kind, Code.Nested [d.intType kind] := fun kind =>
      .of_isFlat (by simp [isFlat_intType])
    cases accessor with
    | signExtendByte => exact nested_cast (hkind .sbyte) h
    | lowByte => exact nested_cast (hkind .byte) h
    | stringLength =>
        unfold CFamily.property CFamily.stringLength
        cases d with
        | standard =>
            refine h.parenthesized.bind fun _ hargs => yields_pure fun awaited => ?_
            simp +decide [Code.parenthesized, hargs awaited]
        | openCL =>
            exact h.parenthesized.bind fun _ hargs =>
              yields_pure (Code.Nested.flat (by decide) hargs)

theorem nested_binary (op : BinaryOp) (ty : Ty) (hl : left.IsNested) (hr : right.IsNested) :
    Yields (cx.binary op ty left right) Code.Nested := by
  have hinfixed := Operand.nested_infixed op hl hr
  unfold binary
  split
  · unfold ActionScript.binary
    split_ifs
    · refine (Operand.nested_infixed .div hl hr).bind fun _ hinside => yields_pure fun awaited => ?_
      simp +decide [hinside.nest_append]
    · exact hinfixed
  · rename_i d _
    unfold CFamily.binary
    split_ifs
    · refine Yields.bind hl fun first hfirst => Yields.bind hr fun second hsecond => ?_
      have hargs : (Code.parenthesized (Code.commaSeparated [first, second])).Nested :=
        (Code.Nested.commaSeparated (by simp [hfirst, hsecond])).parenthesized
      cases d with
      | standard =>
          have hoperator : ∀ equal : Bool,
              (Code.operator (if equal then "!=" else "==")).Nested := by
            intro equal
            cases equal <;> exact .operator (by decide)
          exact yields_pure (Code.Nested.flat (by decide)
            ((hargs.append (hoperator _)).append (.of_isFlat (by decide))))
      | openCL =>
          refine yields_pure (Code.Nested.append ?_ (Code.Nested.flat (by decide) hargs))
          split_ifs
          · exact .of_isFlat (by decide)
          · exact .nil
    · exact hinfixed

theorem nested_userCall (hp : cx.program.IsUnmarked) {receiver : Option Operand} (owner : ClassId)
    {name : String} (hname : Unmarked name) (isStatic : Bool) {args : List Operand}
    (hr : ∀ o ∈ receiver, o.IsNested) (ha : ∀ o ∈ args, o.IsNested) :
    Yields (cx.userCall receiver owner name isStatic args) Code.Nested := by
  unfold userCall
  split
  · have hcall : ∀ qualifier : Code, qualifier.Nested →
        Yields (do return qualifier ++ cx.localWord name :: (← Operand.arguments args))
          Code.Nested := fun qualifier hqualifier =>
      (Operand.nested_arguments ha).bind fun _ hargs =>
        yields_pure (hqualifier.append (Code.Nested.flat (isFlat_localWord hname) hargs))
    unfold ActionScript.userCall
    cases receiver with
    | some obj =>
        refine ((hr obj rfl).atLeast _).bind fun base hbase => hcall _ ?_
        exact hbase.append (.of_isFlat (by decide))
    | none =>
        cases isStatic with
        | true => exact (nested_classPrefix hp owner).bind hcall
        | false => exact hcall [] .nil
  · refine yields_bind fun c hc => ?_
    have hfunction := (hp.className c (mem_classes_of_classOf hc)).functionName hname
    have hcall : ∀ self : List Code, (∀ code ∈ self, code.Nested) → Yields (do
        let rest ← args.mapM (Operand.atLeast .argument)
        return .word (CFamily.functionName c.name name) ::
          Code.parenthesized (Code.commaSeparated (self ++ rest))) Code.Nested := fun self hself =>
      (yields_mapM fun o ho => (ha o ho).atLeast .argument).bind fun rest hrest =>
        yields_pure (Code.Nested.flat (Lexeme.isFlat_word hfunction) (Code.Nested.commaSeparated
          (List.forall_mem_append.mpr ⟨hself, hrest⟩)).parenthesized)
    have hself : Yields (CFamily.instanceArgument receiver) Code.Nested := by
      unfold CFamily.instanceArgument
      cases receiver with
      | none => exact yields_pure (.of_isFlat (by decide))
      | some obj =>
          have hobj := hr obj rfl
          simp only
          split
          · exact (hobj.atLeast _).bind fun _ hbase =>
              yields_pure (Code.Nested.flat (by decide) hbase)
          · exact hobj
    cases isStatic with
    | true => exact hcall [] (by simp)
    | false => exact hself.bind fun self hself => hcall [self] (by simpa using hself)

theorem nested_helperCall (helper : Layout.Helper) {name : String} (hname : Unmarked name)
    {args : List Operand} (h : ∀ o ∈ args, o.IsNested) :
    Yields (ActionScript.helperCall helper name args) Code.Nested :=
  (Operand.nested_arguments h).bind fun _ hargs => yields_pure (Code.Nested.append
    (.of_isFlat (by simp +decide [Lexeme.isFlat, hname])) hargs)

theorem nested_mathCall {name : String} (hname : Unmarked name) {args : List Operand}
    (h : ∀ o ∈ args, o.IsNested) : Yields (ActionScript.mathCall name args) Code.Nested :=
  (Operand.nested_arguments h).bind fun _ hargs => yields_pure (Code.Nested.append
    (.of_isFlat (by simp +decide [Lexeme.isFlat, hname])) hargs)

theorem nested_method (m : BuiltinMethod) {args : List Operand} (h : obj.IsNested)
    (ha : ∀ o ∈ args, o.IsNested) : Yields (ActionScript.method cx obj m args) Code.Nested := by
  have hall : ∀ o ∈ obj :: args, o.IsNested := List.forall_mem_cons.mpr ⟨h, ha⟩
  unfold ActionScript.method
  split
  case h_1 factor divisor =>
    refine (h.atLeast _).bind fun product hproduct => ((ha factor (by simp)).atLeast _).bind
      fun factored hfactor => ((ha divisor (by simp)).above _).bind fun divided hdivisor =>
        yields_pure fun awaited => ?_
    simp +decide [hproduct.nest_append, hfactor.nest_append, hdivisor.nest_append, Code.operator]
  case h_2 position =>
    refine (h.atLeast _).bind fun base hbase =>
      Yields.bind (ha position (by simp)) fun inside hinside =>
      yields_pure fun awaited => ?_
    simp +decide [hbase.nest_append, hinside.nest_append, Code.parenthesized]
  case h_3 start length =>
    have hstart := ha start (by simp)
    unfold ActionScript.substring
    split_ifs
    · exact nested_helperCall _ (by decide) hall
    · refine (h.atLeast _).bind fun base hbase => (hstart.atLeast _).bind fun first hfirst =>
        (Operand.nested_infixed .add hstart (ha length (by simp))).bind fun last hlast =>
          yields_pure ?_
      have hargs : (Code.parenthesized (Code.commaSeparated [first, last])).Nested :=
        (Code.Nested.commaSeparated (by simp [hfirst, hlast])).parenthesized
      exact (hbase.append (.of_isFlat (by decide))).append hargs
  case h_4 => exact nested_helperCall _ (by decide) hall
  case h_5 => exact nested_helperCall _ (by decide) hall
  case h_6 =>
    exact h.parenthesized.bind fun _ hargs => yields_pure (Code.Nested.append
      (.of_isFlat (by decide)) hargs)
  case h_7 => exact yields_error _

theorem nested_actionScriptBuiltin {receiver : Option Operand} (m : BuiltinMethod)
    {args : List Operand} (hr : ∀ o ∈ receiver, o.IsNested) (ha : ∀ o ∈ args, o.IsNested) :
    Yields (ActionScript.builtinCall cx receiver m args) Code.Nested := by
  unfold ActionScript.builtinCall
  split
  · exact yields_error _
  · exact nested_method m (hr _ rfl) ha
  · cases args with
    | nil => exact yields_pure (Code.Nested.flat (by decide) (nested_quoted "").parenthesized)
    | cons arg rest =>
        exact Yields.bind (ha arg (by simp)) fun _ hshown =>
          yields_pure (Code.Nested.flat (by decide) hshown.parenthesized)
  · exact nested_mathCall (by decide) ha
  · exact nested_mathCall (by decide) ha
  · exact yields_error _

theorem nested_elementSize (h : obj.IsNested) : Yields (CFamily.elementSize obj) Code.Nested :=
  (h.atLeast _).bind fun _ hbase => yields_pure fun awaited => by
    simp +decide [hbase.nest_append, Code.parenthesized]

theorem nested_arrayMethod (d : Dialect) (m : BuiltinMethod) {args : List Operand}
    (h : obj.IsNested) (ha : ∀ o ∈ args, o.IsNested) :
    Yields (CFamily.arrayMethod cx d obj m args) Code.Nested := by
  unfold CFamily.arrayMethod
  split
  case h_1 start target targetStart length =>
    refine (Operand.nested_infixed .add (ha target (by simp)) (ha targetStart (by simp))).bind
      fun destination hdestination => (Operand.nested_infixed .add h (ha start (by simp))).bind
        fun source hsource => ((ha length (by simp)).atLeast _).bind fun count hcount =>
          (nested_elementSize h).bind fun size hsize => yields_pure ?_
    have hbytes : (count ++ Code.operator "*" ++ size).Nested :=
      (hcount.append (.operator (by decide))).append hsize
    exact .flat (by decide) (Code.Nested.commaSeparated
      (by simpa using ⟨hdestination, hsource, by simpa using hbytes⟩)).parenthesized
  case h_2 =>
    split
    · rename_i length _
      refine Yields.bind h fun target htarget => (nested_elementSize h).bind fun size hsize =>
        yields_pure ?_
      have hbytes : Code.Nested (.number (toString length.toNat) :: Code.operator "*" ++ size) :=
        Code.Nested.append (.flat (by simp) (.operator (by decide))) hsize
      have hzero : Code.Nested [.number "0"] := .of_isFlat (by decide)
      exact .flat (by decide) (Code.Nested.commaSeparated
        (by simpa using ⟨htarget, hzero, by simpa using hbytes⟩)).parenthesized
    · exact yields_error _
  case h_3 => exact yields_error _

theorem nested_cFamilyBuiltin (d : Dialect) {receiver : Option Operand} (m : BuiltinMethod)
    {args : List Operand} (hr : ∀ o ∈ receiver, o.IsNested) (ha : ∀ o ∈ args, o.IsNested) :
    Yields (CFamily.builtinCall cx d receiver m args) Code.Nested := by
  unfold CFamily.builtinCall
  split
  case h_1 obj factor divisor =>
    have hlong : Code.Nested [d.intType .long] := .of_isFlat (by simp [isFlat_intType])
    refine (nested_cast hlong (hr obj rfl)).bind fun product hproduct =>
      ((ha factor (by simp)).atLeast _).bind fun factored hfactor =>
        ((ha divisor (by simp)).above _).bind fun divided hdivisor => yields_pure fun awaited => ?_
    simp +decide [hproduct.nest_append, hfactor.nest_append, hdivisor.nest_append, Code.operator,
      Code.parenthesized]
  case h_2 obj position => exact Operand.nested_indexed (hr obj rfl) (ha position (by simp))
  case h_3 => exact yields_error _
  case h_4 => exact yields_error _
  case h_5 obj => exact nested_arrayMethod d _ (hr obj rfl) ha
  case h_6 obj => exact nested_arrayMethod d _ (hr obj rfl) ha
  case h_7 value =>
    refine (Operand.nested_arguments ha).bind fun _ hargs => yields_pure (Code.Nested.flat ?_ hargs)
    split_ifs <;> decide
  case h_8 value =>
    exact (Operand.nested_arguments ha).bind fun _ hargs =>
      yields_pure (Code.Nested.flat (by decide) hargs)
  case h_9 => exact yields_error _

/-! An interpolated string is a sum in ActionScript and a format with values in C. Either way its
texts stand in literals, where brackets do not count. -/

theorem nested_interpolatedTail (first : Bool) {holes : List (Hole × Operand)}
    (h : ∀ part ∈ holes, part.2.IsNested) :
    Yields (ActionScript.interpolatedTail cx first holes) Code.Nested := by
  induction holes generalizing first with
  | nil => exact yields_pure .nil
  | cons part rest ih =>
      obtain ⟨hpart, hrest⟩ := List.forall_mem_cons.mp h
      obtain ⟨hole, arg⟩ := part
      have hplus : (Code.operator "+").Nested := .operator (by decide)
      unfold ActionScript.interpolatedTail
      split_ifs
      · exact yields_error _
      all_goals
        refine (hpart.above _).bind fun shown hshown => (ih false hrest).bind fun others hothers =>
          yields_pure ?_
      · exact (((nested_quoted _).append hplus).append hshown).append hothers
      · exact (((hplus.append (nested_quoted _)).append hplus).append hshown).append hothers
      · exact ((Code.Nested.nil.append hplus).append hshown).append hothers

theorem nested_interpolated {holes : List (Hole × Operand)} (suffix : String)
    (h : ∀ part ∈ holes, part.2.IsNested) :
    Yields (ActionScript.interpolated cx holes suffix) Code.Nested := by
  refine (nested_interpolatedTail true h).bind fun chain hchain => ?_
  split_ifs
  · exact yields_pure (nested_quoted suffix)
  · exact yields_pure ((hchain.append (.operator (by decide))).append (nested_quoted suffix))
  · exact yields_pure hchain

theorem nested_printedValue (d : Dialect) (h : obj.IsNested) :
    Yields (CFamily.printedValue d obj) Code.Nested := by
  unfold CFamily.printedValue
  cases d with
  | standard =>
      simp only [Dialect.longCast]
      split_ifs
      · refine (h.atLeast _).bind fun value hvalue => yields_pure ?_
        have hlong : Code.Nested [.word "long", .gap, .word "long"] := .of_isFlat (by decide)
        exact hlong.parenthesized.append (Code.Nested.flat rfl hvalue)
      · exact h.atLeast _
  | openCL => exact h.atLeast _

theorem nested_printfCall (d : Dialect) (format : String) {values : List Operand}
    (h : ∀ o ∈ values, o.IsNested) : Yields (CFamily.printfCall d format values) Code.Nested :=
  (yields_mapM fun o ho => nested_printedValue d (h o ho)).bind fun _ hrest =>
    yields_pure (Code.Nested.flat (by decide) (Code.Nested.commaSeparated
      (List.forall_mem_cons.mpr ⟨nested_quoted format, hrest⟩)).parenthesized)

/-- The operands of what is printed are nested. -/
def Shown.IsNested : CFamily.Shown → Prop
  | .interpolated holes _ => ∀ part ∈ holes, part.2.IsNested
  | .value o => o.IsNested

theorem nested_printCall (d : Dialect) (receiver : Option Operand) (m : BuiltinMethod)
    (lineEnd : String) {args : List CFamily.Shown} (h : ∀ shown ∈ args, Shown.IsNested shown) :
    Yields (CFamily.printCall cx d receiver m lineEnd args) Code.Nested := by
  unfold CFamily.printCall
  split
  · unfold CFamily.print
    split
    · exact nested_printfCall d _ (by simp)
    · rename_i holes suffix
      have hholes : ∀ part ∈ holes, part.2.IsNested := h (.interpolated holes suffix) (by simp)
      refine yields_bind fun _ _ => nested_printfCall d _ ?_
      simpa using fun o hole ho => hholes (hole, o) ho
    · rename_i o
      have ho : o.IsNested := h (.value o) (by simp)
      split
      · exact nested_printfCall d _ (by simp)
      · exact yields_bind fun _ _ => nested_printfCall d _ (by simpa using ho)
    · exact yields_error _
  · exact yields_error _

theorem isNested_shown {args : List Expr} (h : ∀ e ∈ args, Yields (cx.code e) Code.Nested)
    (hparts : ∀ parts suffix ty, .interpolated parts suffix ty ∈ args →
      ∀ part ∈ parts, Yields (cx.code part.arg) Code.Nested) :
    ∀ shown ∈ cx.shown args, Shown.IsNested shown := by
  induction args with
  | nil => simp [shown]
  | cons e rest ih =>
      obtain ⟨he, hrest⟩ := List.forall_mem_cons.mp h
      have ih := ih hrest fun parts suffix ty hmem =>
        hparts parts suffix ty (List.mem_cons_of_mem e hmem)
      cases e with
      | interpolated parts suffix ty =>
          refine List.forall_mem_cons.mpr ⟨?_, ih⟩
          have hhole := hparts parts suffix ty (by simp)
          simpa [Shown.IsNested, holes_eq, Operand.IsNested, Context.operand] using hhole
      | _ => exact List.forall_mem_cons.mpr ⟨he, ih⟩

/-- The code of every expression is nested, and so is that of the values in it where it is a text
with values: in the C family these are printed as arguments of their own. -/
theorem nested_code_and_parts (hp : cx.program.IsUnmarked) (e : Expr) (h : e.isUnmarked = true) :
    Yields (cx.code e) Code.Nested ∧ ∀ parts suffix ty, e = .interpolated parts suffix ty →
      ∀ part ∈ parts, Yields (cx.code part.arg) Code.Nested := by
  induction e using Expr.inductOn with
  | h e ih =>
      obtain ⟨hname, hchildren⟩ := Expr.isUnmarked_iff.mp h
      have ih : ∀ child ∈ e.children, (cx.operand child).IsNested ∧
          ∀ parts suffix ty, child = .interpolated parts suffix ty →
            ∀ part ∈ parts, Yields (cx.code part.arg) Code.Nested := fun child hchild =>
        ih child hchild (hchildren child hchild)
      refine ⟨?_, ?_⟩
      swap
      · rintro parts suffix ty rfl part hpart
        exact (ih part.arg (List.mem_map_of_mem hpart)).1
      cases e with
      | literal value ty => exact nested_literal value
      | var name ty => exact yields_pure (.of_isFlat (by simp [isFlat_localWord (hname name rfl)]))
      | this ty =>
          refine yields_pure ?_
          unfold this
          cases cx.target <;> exact .of_isFlat (by simp +decide)
      | const owner name ty => exact nested_constant hp owner (hname name rfl)
      | enumValue id i ty => exact nested_enumValue hp id i
      | field obj name ty =>
          exact nested_field (ih obj (by simp [Expr.children])).1 (hname name rfl)
      | property obj accessor ty =>
          exact nested_property accessor (ih obj (by simp [Expr.children])).1
      | call receiver callee args ty =>
          have hr : ∀ o ∈ receiver.map cx.operand, o.IsNested := by
            intro o ho
            obtain ⟨obj, rfl, rfl⟩ := Option.map_eq_some_iff.mp ho
            exact (ih obj (by simp [Expr.children])).1
          have ha : ∀ o ∈ args.map cx.operand, o.IsNested := by
            intro o ho
            obtain ⟨arg, harg, rfl⟩ := List.mem_map.mp ho
            exact (ih arg (by simp [Expr.children, harg])).1
          cases callee with
          | user owner name isStatic =>
              rw [code, receiverOperand_eq, operands_eq]
              exact nested_userCall hp owner (hname name rfl) isStatic hr ha
          | builtin m =>
              have hshown : ∀ shown ∈ cx.shown args, Shown.IsNested shown :=
                isNested_shown (fun arg harg => (ih arg (by simp [Expr.children, harg])).1)
                  fun parts suffix ty hmem =>
                    (ih _ (by simp [Expr.children, hmem])).2 parts suffix ty rfl
              rw [code_builtinCall]
              cases cx.target with
              | actionScript => exact nested_actionScriptBuiltin m hr ha
              | cFamily d =>
                  dsimp only
                  split_ifs
                  · exact nested_printCall d _ _ _ hshown
                  · exact nested_printCall d _ _ _ hshown
                  · exact nested_cFamilyBuiltin d m hr ha
      | index array position ty =>
          exact Operand.nested_indexed (ih array (by simp [Expr.children])).1
            (ih position (by simp [Expr.children])).1
      | unary op operand ty =>
          exact Operand.nested_unary op (ih operand (by simp [Expr.children])).1
      | binary left op right ty =>
          exact nested_binary op ty (ih left (by simp [Expr.children])).1
            (ih right (by simp [Expr.children])).1
      | select cond onTrue onFalse ty =>
          rw [code_select]
          refine ((ih cond (by simp [Expr.children])).1.atLeast _).bind fun first hfirst =>
            ((ih onTrue (by simp [Expr.children])).1.atLeast _).bind fun second hsecond =>
              ((ih onFalse (by simp [Expr.children])).1.atLeast _).bind fun third hthird =>
                yields_pure ?_
          exact (((hfirst.append (.operator (by decide))).append hsecond).append
            (.operator (by decide))).append hthird
      | interpolated parts suffix ty =>
          have hholes : ∀ part ∈ cx.holes parts, part.2.IsNested := by
            rw [holes_eq]
            intro pair hpair
            obtain ⟨part, hpart, rfl⟩ := List.mem_map.mp hpair
            exact (ih part.arg (List.mem_map_of_mem hpart)).1
          rw [code]
          split
          · exact nested_interpolated suffix hholes
          · exact yields_error _
      | resource name ty =>
          change Yields (cx.resource name) Code.Nested
          unfold resource
          split
          · exact yields_error _
          · unfold CFamily.resource
            split_ifs
            · exact yields_pure (nested_word (unmarked_resourceName name))
            · exact yields_error _

theorem nested_code (hp : cx.program.IsUnmarked) {e : Expr} (h : e.isUnmarked = true) :
    Yields (cx.code e) Code.Nested := (nested_code_and_parts hp e h).1

end Context

end Emitter
