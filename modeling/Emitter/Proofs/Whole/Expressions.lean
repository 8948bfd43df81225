import Emitter.Proofs.Expression.Shown
import Emitter.Proofs.Whole.Lookups
import Emitter.Proofs.Whole.References

/-!
# Printing expressions of whole programs

In a whole program, every expression is printed or refused: each class and each enumeration that
printing looks up is one that the expression mentions.
-/

namespace Emitter

open Layout Number Program Text

namespace Operand

variable {o left right : Operand}

@[simp] theorem proper_parenthesized : Proper o.parenthesized ↔ Proper o.code := proper_map

@[simp] theorem proper_atLeast (h : Proper o.code) (least : Priority) :
    Proper (o.atLeast least) := by
  unfold atLeast
  simp [h]

@[simp] theorem proper_above (h : Proper o.code) (bound : Priority) : Proper (o.above bound) := by
  unfold above
  simp [h]

@[simp] theorem proper_infixed (op : BinaryOp) (hl : Proper left.code) (hr : Proper right.code) :
    Proper (left.infixed op right) := by
  simp [infixed, hl, hr]

@[simp] theorem proper_indexed (hl : Proper left.code) (hr : Proper right.code) :
    Proper (left.indexed right) := by
  simp [indexed, hl, hr]

@[simp] theorem proper_arguments {args : List Operand} (h : ∀ o ∈ args, Proper o.code) :
    Proper (arguments args) := by
  have hargs : Proper (args.mapM (atLeast .argument)) :=
    proper_mapM fun o ho => proper_atLeast (h o ho) _
  simp [arguments, hargs]

theorem proper_unary (op : UnaryOp) (h : Proper o.code) : Proper (Context.unary op o) := by
  unfold Context.unary
  simp [prefixed, postfixed, h]

end Operand

namespace Context

variable {cx : Context}

theorem proper_classOf {id : ClassId} (h : cx.program.declares (.classDef id) = true) :
    Proper (cx.classOf id) := by
  obtain ⟨c, -, hc⟩ := exists_classOf h
  simp [classOf, hc, lookedUp]

theorem proper_enumOf {id : EnumId} (h : cx.program.declares (.enumeration id) = true) :
    Proper (cx.enumOf id) := by
  obtain ⟨e, -, he⟩ := exists_enumOf h
  simp [enumOf, he, lookedUp]

theorem mem_classes_of_classOf {id : ClassId} {c : ClassDef} (h : cx.classOf id = .ok c) :
    c ∈ cx.program.classes :=
  List.mem_of_getElem? (classOf_eq_ok h)

@[simp] theorem proper_float (x : Binary64) : Proper (cx.float x) := by
  unfold float
  split <;> simp

theorem proper_literal (value : Literal) : Proper (cx.literal value) := by
  cases value <;> simp [literal]

theorem proper_enumValue {id : EnumId} (index : UInt64)
    (h : cx.program.declares (.enumeration id) = true) : Proper (cx.enumValue id index) := by
  unfold enumValue
  rw [proper_bind]
  refine ⟨proper_enumOf h, fun e _ => ?_⟩
  split
  · simp
  · split <;> simp

mutual

theorem proper_constValue : ∀ {value : ConstValue}, cx.program.Resolves value.mentions →
    Proper (cx.constValue value)
  | .int _, _ | .bool _, _ | .str _, _ => by simp [constValue]
  | .float _, _ => by simp [constValue]
  | .enumValue _ index, h => by
    simp only [ConstValue.mentions, resolves_cons, resolves_nil, and_true] at h
    exact proper_enumValue index h
  | .array items, h => by
    simp only [constValue, proper_bind, proper_pure, implies_true, and_true]
    exact proper_constItems h

theorem proper_constItems : ∀ {items : List ConstValue},
    cx.program.Resolves (itemMentions items) → Proper (cx.constItems items)
  | [], _ => proper_ok []
  | _ :: _, h => by
    simp only [itemMentions, resolves_append] at h
    simp only [constItems, proper_bind, proper_pure, implies_true, and_true]
    exact ⟨proper_constValue h.1, fun _ _ => proper_constItems h.2⟩

end

theorem proper_classPrefix {id : ClassId} (h : cx.program.declares (.classDef id) = true) :
    Proper (ActionScript.classPrefix cx id) := by
  simp [ActionScript.classPrefix, proper_classOf h]

/-- A constant's class is looked up, and its value is one of that class's. -/
theorem proper_constant (hp : cx.program.Whole) {owner : ClassId} (name : String)
    (h : cx.program.declares (.classDef owner) = true) : Proper (cx.constant owner name) := by
  unfold constant
  split
  · unfold ActionScript.constant
    rw [proper_bind]
    refine ⟨proper_classOf h, fun c hclass => ?_⟩
    split
    case h_1 k hk =>
      have hconst := hp.const (mem_classes_of_classOf hclass) (List.mem_of_find?_eq_some hk)
      rw [ConstDef.mentions, resolves_append] at hconst
      simp [proper_constValue hconst.2]
    case h_2 => simp [proper_classPrefix h]
  · simp [CFamily.constant, proper_classOf h]

theorem proper_resource (name : String) : Proper (cx.resource name) := by
  unfold resource
  split <;> simp [CFamily.resource]

variable {obj left right : Operand}

theorem proper_field (name : String) (h : Proper obj.code) : Proper (cx.field obj name) := by
  unfold field
  split <;> simp [ActionScript.field, CFamily.field, h]

theorem proper_property (accessor : BuiltinProperty) (h : Proper obj.code) :
    Proper (cx.property accessor obj) := by
  unfold property
  split
  · cases accessor <;> simp [ActionScript.property, h]
  · cases accessor with
    | stringLength =>
        simp only [CFamily.property, CFamily.stringLength]
        split <;> simp [h]
    | _ => simp [CFamily.property, CFamily.cast, h]

theorem proper_binary (op : BinaryOp) (ty : Ty) (hl : Proper left.code) (hr : Proper right.code) :
    Proper (cx.binary op ty left right) := by
  unfold binary
  split
  · simp [ActionScript.binary, ActionScript.quotient, hl, hr]
  · simp only [CFamily.binary, proper_ite]
    refine ⟨fun _ => ?_, fun _ => Operand.proper_infixed op hl hr⟩
    simp only [CFamily.stringEquality, proper_bind]
    refine ⟨hl, fun _ _ => ⟨hr, fun _ _ => ?_⟩⟩
    split <;> simp

theorem proper_userCall {receiver : Option Operand} {owner : ClassId} (name : String)
    (isStatic : Bool) {args : List Operand} (h : cx.program.declares (.classDef owner) = true)
    (hr : ∀ o ∈ receiver, Proper o.code) (ha : ∀ o ∈ args, Proper o.code) :
    Proper (cx.userCall receiver owner name isStatic args) := by
  unfold userCall
  split
  · unfold ActionScript.userCall
    cases receiver with
    | none => cases isStatic <;> simp [proper_classPrefix h, Operand.proper_arguments ha]
    | some obj => simp [hr obj rfl, Operand.proper_arguments ha]
  · have hargs : Proper (args.mapM (Operand.atLeast .argument)) :=
      proper_mapM fun o ho => Operand.proper_atLeast (ha o ho) _
    have hself : Proper (CFamily.instanceArgument receiver) := by
      cases receiver with
      | none => exact proper_ok _
      | some obj =>
          simp only [CFamily.instanceArgument]
          split
          · simp [hr obj rfl]
          · exact hr obj rfl
    cases isStatic <;> simp [CFamily.userCall, proper_classOf h, hself, hargs]

theorem proper_helperCall (helper : Layout.Helper) (name : String) {args : List Operand}
    (h : ∀ o ∈ args, Proper o.code) : Proper (ActionScript.helperCall helper name args) := by
  simp [ActionScript.helperCall, Operand.proper_arguments h]

theorem proper_method (m : BuiltinMethod) {args : List Operand} (h : Proper obj.code)
    (ha : ∀ o ∈ args, Proper o.code) : Proper (ActionScript.method cx obj m args) := by
  have hall : ∀ o ∈ obj :: args, Proper o.code := List.forall_mem_cons.mpr ⟨h, ha⟩
  unfold ActionScript.method
  split
  · simp_all
  · simp_all
  · simp only [ActionScript.substring, proper_ite]
    exact ⟨fun _ => proper_helperCall _ _ hall, fun _ => by simp_all⟩
  · exact proper_helperCall _ _ hall
  · exact proper_helperCall _ _ hall
  · simp [h]
  · simp

theorem proper_actionScriptBuiltin {receiver : Option Operand} (m : BuiltinMethod)
    {args : List Operand} (hr : ∀ o ∈ receiver, Proper o.code) (ha : ∀ o ∈ args, Proper o.code) :
    Proper (ActionScript.builtinCall cx receiver m args) := by
  unfold ActionScript.builtinCall
  split
  · simp
  · exact proper_method m (hr _ rfl) ha
  · cases args <;> simp_all
  · simp [ActionScript.mathCall, Operand.proper_arguments ha]
  · simp [ActionScript.mathCall, Operand.proper_arguments ha]
  · simp

theorem proper_arrayMethod (d : Dialect) {array : Operand} (m : BuiltinMethod)
    {args : List Operand} (hr : Proper array.code) (ha : ∀ o ∈ args, Proper o.code) :
    Proper (CFamily.arrayMethod cx d array m args) := by
  unfold CFamily.arrayMethod
  split
  · simp_all [CFamily.offset, CFamily.elementSize]
  · split <;> simp_all [CFamily.elementSize]
  · simp

theorem proper_cFamilyBuiltin (d : Dialect) {receiver : Option Operand} (m : BuiltinMethod)
    {args : List Operand} (hr : ∀ o ∈ receiver, Proper o.code) (ha : ∀ o ∈ args, Proper o.code) :
    Proper (CFamily.builtinCall cx d receiver m args) := by
  unfold CFamily.builtinCall
  split
  · simp_all [CFamily.cast]
  · simp_all
  · simp
  · simp
  · exact proper_arrayMethod d _ (hr _ rfl) ha
  · exact proper_arrayMethod d _ (hr _ rfl) ha
  · simp [Operand.proper_arguments ha]
  · simp [Operand.proper_arguments ha]
  · simp

theorem proper_interpolatedTail (first : Bool) {holes : List (Hole × Operand)}
    (h : ∀ part ∈ holes, Proper part.2.code) :
    Proper (ActionScript.interpolatedTail cx first holes) := by
  induction holes generalizing first with
  | nil => exact proper_ok []
  | cons part rest ih =>
      obtain ⟨hpart, hrest⟩ := List.forall_mem_cons.mp h
      unfold ActionScript.interpolatedTail
      simp [hpart, ih false hrest]

theorem proper_interpolated {holes : List (Hole × Operand)} (suffix : String)
    (h : ∀ part ∈ holes, Proper part.2.code) :
    Proper (ActionScript.interpolated cx holes suffix) := by
  simp [ActionScript.interpolated, proper_interpolatedTail true h]

theorem proper_conversion (d : Dialect) (hole : Hole) (ty : Ty) :
    Proper (CFamily.conversion cx d hole ty) := by
  have hletters : ∀ format, Proper (CFamily.conversionLetters cx d format ty) := by
    intro format
    unfold CFamily.conversionLetters
    split
    · simp
    · split <;> simp
  simp [CFamily.conversion, hletters]

theorem proper_printfCall (d : Dialect) (format : String) {values : List Operand}
    (h : ∀ o ∈ values, Proper o.code) : Proper (CFamily.printfCall d format values) := by
  have hvalues : Proper (values.mapM (CFamily.printedValue d)) := by
    refine proper_mapM fun o ho => ?_
    unfold CFamily.printedValue
    split <;> simp [h o ho]
  simp [CFamily.printfCall, hvalues]

/-- The operands of what is printed have proper forms. -/
def Shown.IsProper : CFamily.Shown → Prop
  | .interpolated holes _ => ∀ part ∈ holes, Proper part.2.code
  | .value o => Proper o.code

theorem proper_printCall (d : Dialect) (receiver : Option Operand) (m : BuiltinMethod)
    (lineEnd : String) {args : List CFamily.Shown} (h : ∀ shown ∈ args, Shown.IsProper shown) :
    Proper (CFamily.printCall cx d receiver m lineEnd args) := by
  unfold CFamily.printCall
  split
  · unfold CFamily.print
    split
    · exact proper_printfCall d _ (by simp)
    · rename_i holes suffix
      have hholes : ∀ part ∈ holes, Proper part.2.code := h (.interpolated holes suffix) (by simp)
      have hformats : Proper (CFamily.holeFormats cx d holes) := by
        unfold CFamily.holeFormats
        rw [proper_bind]
        refine ⟨proper_mapM fun part _ => ?_, fun _ _ => proper_pure _⟩
        simp [proper_conversion]
      rw [proper_bind]
      refine ⟨hformats, fun _ _ => proper_printfCall d _ ?_⟩
      simpa using fun o hole ho => hholes (hole, o) ho
    · rename_i o
      have ho : Proper o.code := h (.value o) (by simp)
      split
      · exact proper_printfCall d _ (by simp)
      · rw [proper_bind]
        exact ⟨proper_conversion d _ _, fun _ _ => proper_printfCall d _ (by simpa using ho)⟩
    · simp
  · simp

theorem isProper_shown {args : List Expr} (h : ∀ e ∈ args, Proper (cx.code e))
    (hparts : ∀ parts suffix ty, .interpolated parts suffix ty ∈ args →
      ∀ part ∈ parts, Proper (cx.code part.arg)) :
    ∀ shown ∈ cx.shown args, Shown.IsProper shown := by
  induction args with
  | nil => simp [shown]
  | cons e rest ih =>
      obtain ⟨he, hrest⟩ := List.forall_mem_cons.mp h
      have ih := ih hrest fun parts suffix ty hmem =>
        hparts parts suffix ty (List.mem_cons_of_mem e hmem)
      cases e with
      | interpolated parts suffix ty =>
          refine List.forall_mem_cons.mpr ⟨?_, ih⟩
          have hhole := hparts parts suffix ty (by simp)
          simpa [Shown.IsProper, holes_eq, Context.operand] using hhole
      | _ => exact List.forall_mem_cons.mpr ⟨he, ih⟩

theorem resolves_child {p : Program} {e child : Expr} (h : p.Resolves e.mentions)
    (hchild : child ∈ e.children) : p.Resolves child.mentions := fun id hid =>
  h id (mem_mentions_expr.mpr (.operand hchild (mem_mentions_expr.mp hid)))

theorem code_select (cond onTrue onFalse : Expr) (ty : Ty) :
    cx.code (.select cond onTrue onFalse ty) =
      Operand.selected (cx.operand cond) (cx.operand onTrue) (cx.operand onFalse) := by
  rw [code]
  rfl

/-- Every expression that mentions only declarations is printed or refused, and so are the values
in it where it is a text with values. -/
theorem proper_code_and_parts (hp : cx.program.Whole) (e : Expr)
    (h : cx.program.Resolves e.mentions) : Proper (cx.code e) ∧
      ∀ parts suffix ty, e = .interpolated parts suffix ty →
        ∀ part ∈ parts, Proper (cx.code part.arg) := by
  induction e using Expr.inductOn with
  | h e ih =>
      have ih : ∀ child ∈ e.children, Proper (cx.operand child).code ∧
          ∀ parts suffix ty, child = .interpolated parts suffix ty →
            ∀ part ∈ parts, Proper (cx.code part.arg) := fun child hchild =>
        ih child hchild (resolves_child h hchild)
      refine ⟨?_, ?_⟩
      swap
      · rintro parts suffix ty rfl part hpart
        exact (ih part.arg (List.mem_map_of_mem hpart)).1
      cases e with
      | literal value ty => exact proper_literal value
      | var | this => exact proper_ok _
      | const owner name ty =>
          simp only [Expr.mentions, resolves_append, resolves_cons] at h
          exact proper_constant hp name h.2.1
      | enumValue id i ty =>
          simp only [Expr.mentions, resolves_append, resolves_cons] at h
          exact proper_enumValue i h.2.1
      | field obj name ty => exact proper_field name (ih obj (by simp [Expr.children])).1
      | property obj accessor ty =>
          exact proper_property accessor (ih obj (by simp [Expr.children])).1
      | call receiver callee args ty =>
          have hr : ∀ o ∈ receiver.map cx.operand, Proper o.code := by
            intro o ho
            obtain ⟨obj, rfl, rfl⟩ := Option.map_eq_some_iff.mp ho
            exact (ih obj (by simp [Expr.children])).1
          have ha : ∀ o ∈ args.map cx.operand, Proper o.code := by
            intro o ho
            obtain ⟨arg, harg, rfl⟩ := List.mem_map.mp ho
            exact (ih arg (by simp [Expr.children, harg])).1
          cases callee with
          | user owner name isStatic =>
              simp only [Expr.mentions, Callee.mentions, resolves_append, resolves_cons] at h
              rw [code, receiverOperand_eq, operands_eq]
              exact proper_userCall name isStatic h.1.1.2.1 hr ha
          | builtin m =>
              have hshown : ∀ shown ∈ cx.shown args, Shown.IsProper shown :=
                isProper_shown (fun arg harg => (ih arg (by simp [Expr.children, harg])).1)
                  fun parts suffix ty hmem =>
                    (ih _ (by simp [Expr.children, hmem])).2 parts suffix ty rfl
              rw [code_builtinCall]
              cases cx.target with
              | actionScript => exact proper_actionScriptBuiltin m hr ha
              | cFamily d =>
                  simp only [proper_ite]
                  exact ⟨fun _ => proper_printCall d _ _ _ hshown, fun _ =>
                    ⟨fun _ => proper_printCall d _ _ _ hshown, fun _ =>
                      proper_cFamilyBuiltin d m hr ha⟩⟩
      | index array position ty =>
          exact Operand.proper_indexed (ih array (by simp [Expr.children])).1
            (ih position (by simp [Expr.children])).1
      | unary op operand ty =>
          exact Operand.proper_unary op (ih operand (by simp [Expr.children])).1
      | binary left op right ty =>
          exact proper_binary op ty (ih left (by simp [Expr.children])).1
            (ih right (by simp [Expr.children])).1
      | select cond onTrue onFalse ty =>
          have hcond := (ih cond (by simp [Expr.children])).1
          have htrue := (ih onTrue (by simp [Expr.children])).1
          have hfalse := (ih onFalse (by simp [Expr.children])).1
          rw [code_select]
          simp [Operand.selected, hcond, htrue, hfalse]
      | interpolated parts suffix ty =>
          have hholes : ∀ part ∈ cx.holes parts, Proper part.2.code := by
            rw [holes_eq]
            intro pair hpair
            obtain ⟨part, hpart, rfl⟩ := List.mem_map.mp hpair
            exact (ih part.arg (List.mem_map_of_mem hpart)).1
          rw [code]
          split
          · exact proper_interpolated suffix hholes
          · simp
      | resource name ty => exact proper_resource name

theorem proper_code (hp : cx.program.Whole) {e : Expr} (h : cx.program.Resolves e.mentions) :
    Proper (cx.code e) := (proper_code_and_parts hp e h).1

end Context

end Emitter
