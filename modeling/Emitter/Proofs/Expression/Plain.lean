import Emitter.Proofs.Expression.Faithful

/-!
# Plain expressions

Literals other than floating-point ones, variables, `this`, enumeration values, fields, elements,
calls of methods on instances, operators and the conditional operator. They are always printed, and
the printed form is read as one expression, in one way only.
-/

namespace Emitter

open Layout Program Reading

namespace Program.Expr

/-- A number that is written out. -/
def isNumericLiteral : Expr → Bool
  | .literal (.int _) _ | .literal (.float _) _ => true
  | _ => false

end Program.Expr

namespace Context

/-- The value is one of its enumeration's. -/
def hasEnumValue (cx : Context) (id : EnumId) (index : UInt64) : Bool :=
  cx.program.enums[id.index.toNat]?.any fun e => decide (index.toNat < e.values.length)

/-- The expression itself is of the plain kind, whatever its operands are. The C family looks up
the class of a method, and compares strings by a function. -/
def isPlain (cx : Context) : Expr → Bool
  | .literal (.float _) _ => false
  | .literal _ _ | .this _ | .index .. | .unary .. | .select .. => true
  | .var name _ => isWord name
  | .enumValue id index _ => cx.hasEnumValue id index
  | .field obj name _ => isWord name && !obj.isNumericLiteral
  | .call receiver (.user owner name false) _ _ =>
    isWord name && !receiver.any Expr.isNumericLiteral &&
      match cx.target with
      | .actionScript => true
      | .cFamily _ => (cx.class? owner).isSome
  | .binary left op right _ =>
    match cx.target with
    | .actionScript => true
    | .cFamily _ => !((op = .eq || op = .notEq) && (left.ty.isString || right.ty.isString))
  | _ => false

variable {cx : Context}

theorem isNamed_of_isPlain {e : Expr} (h : cx.isPlain e = true) : e.isNamed = true := by
  cases e with
  | call receiver callee args ty =>
      cases callee with
      | builtin m => rfl
      | user owner name isStatic =>
          cases isStatic <;> simp_all [isPlain, Expr.isNamed]
  | _ => simp_all [isPlain, Expr.isNamed]

/-- The only numbers among plain expressions are integer literals. -/
theorem number?_of_isPlain {e : Expr} (h : cx.isPlain e = true) :
    cx.number? e = none ∨ ∃ n ty, e = .literal (.int n) ty := by
  cases e with
  | literal value ty => cases value <;> simp_all [isPlain, number?]
  | const => simp [isPlain] at h
  | _ => exact .inl rfl

theorem isMinusZero_of_isPlain {e : Expr} (h : cx.isPlain e = true) :
    cx.isMinusZero e = false := by
  rcases number?_of_isPlain h with hnone | ⟨n, ty, rfl⟩
  · simp [isMinusZero, hnone]
  · rfl

theorem hidesSign_of_isPlain {e : Expr} (h : cx.isPlain e = true) : cx.hidesSign e = false := by
  have hzero := isMinusZero_of_isPlain h
  unfold hidesSign
  cases e with
  | literal value ty => cases value <;> simp_all [isPlain]
  | _ => simpa using hzero

theorem isBareNumber_of_isPlain {e : Expr} (h : cx.isPlain e = true)
    (hliteral : e.isNumericLiteral = false) : cx.isBareNumber e = false := by
  rcases number?_of_isPlain h with hnone | ⟨n, ty, rfl⟩
  · simp [isBareNumber, hnone]
  · simp [Expr.isNumericLiteral] at hliteral

/-- What is plain everywhere is legible. -/
theorem isLegible_of_isPlain {e : Expr} (h : cx.isPlain e = true)
    (hchildren : ∀ child ∈ e.children, cx.isPlain child = true) : cx.isLegible e = true := by
  cases e with
  | field obj name ty =>
      have hobj := hchildren obj (by simp [Expr.children])
      have hliteral : obj.isNumericLiteral = false := by simp_all [isPlain]
      simp only [isLegible, allowsSelector]
      split_ifs
      · simp [isBareNumber_of_isPlain hobj hliteral]
      · simp [isMinusZero_of_isPlain hobj]
  | property => simp [isPlain] at h
  | call receiver callee args ty =>
      cases receiver with
      | none => rfl
      | some obj =>
          have hobj := hchildren obj (by simp [Expr.children])
          cases callee with
          | builtin m => simp [isPlain] at h
          | user owner name isStatic =>
              cases isStatic with
              | true => simp [isPlain] at h
              | false =>
                  have hliteral : obj.isNumericLiteral = false := by simp_all [isPlain]
                  have hbare := isBareNumber_of_isPlain hobj hliteral
                  cases ht : cx.target <;> simp [isLegible, allowsReceiver, ht, hbare]
  | index array position ty =>
      simp [isLegible, isMinusZero_of_isPlain (hchildren array (by simp [Expr.children]))]
  | unary op operand ty =>
      have hoperand := hchildren operand (by simp [Expr.children])
      simp only [isLegible]
      split_ifs
      · simp [isMinusZero_of_isPlain hoperand]
      · simp [hidesSign_of_isPlain hoperand]
  | _ => rfl

theorem everywhere_isNamed_of_isPlain {e : Expr} (h : e.everywhere cx.isPlain = true) :
    e.everywhere Expr.isNamed = true := by
  induction e using Expr.inductOn with
  | h e ih =>
      obtain ⟨he, hchildren⟩ := Expr.everywhere_iff.mp h
      exact Expr.everywhere_iff.mpr
        ⟨isNamed_of_isPlain he, fun child hchild => ih child hchild (hchildren child hchild)⟩

theorem everywhere_isLegible_of_isPlain {e : Expr} (h : e.everywhere cx.isPlain = true) :
    e.everywhere cx.isLegible = true := by
  induction e using Expr.inductOn with
  | h e ih =>
      obtain ⟨he, hchildren⟩ := Expr.everywhere_iff.mp h
      refine Expr.everywhere_iff.mpr
        ⟨isLegible_of_isPlain he fun child hchild => ?_,
          fun child hchild => ih child hchild (hchildren child hchild)⟩
      exact (Expr.everywhere_iff.mp (hchildren child hchild)).1

end Context

/-! Reading back says nothing where nothing is printed. Plain expressions are always printed, since
they refer only to what the program has. -/

/-- The expression has a printed form. -/
def Prints (cx : Context) (e : Expr) : Prop := ∃ code, cx.code e = .ok code

theorem exists_mapM_eq_ok {α β : Type} {f : α → Result β} {items : List α}
    (h : ∀ item ∈ items, ∃ b, f item = .ok b) : ∃ bs, items.mapM f = .ok bs := by
  induction items with
  | nil => exact ⟨[], rfl⟩
  | cons item rest ih =>
      obtain ⟨⟨b, hb⟩, hrest⟩ := List.forall_mem_cons.mp h
      obtain ⟨bs, hbs⟩ := ih hrest
      exact ⟨b :: bs, by simp [hb, hbs, bind, Except.bind, pure, Except.pure]⟩

namespace Prints

variable {cx : Context} {e left right : Expr}

theorem parenthesized (h : Prints cx e) : ∃ code, (cx.operand e).parenthesized = .ok code := by
  obtain ⟨code, hcode⟩ := h
  exact ⟨_, Result.map_eq_ok.mpr ⟨code, hcode, rfl⟩⟩

theorem atLeast (h : Prints cx e) (least : Priority) :
    ∃ code, (cx.operand e).atLeast least = .ok code := by
  unfold Operand.atLeast
  split_ifs
  · exact h.parenthesized
  · exact h

theorem above (h : Prints cx e) (bound : Priority) :
    ∃ code, (cx.operand e).above bound = .ok code := by
  unfold Operand.above
  split_ifs
  · exact h.parenthesized
  · exact h

theorem infixed (hl : Prints cx left) (hr : Prints cx right) (op : BinaryOp) :
    ∃ code, (cx.operand left).infixed op (cx.operand right) = .ok code := by
  obtain ⟨first, hfirst⟩ := hl.atLeast op.priority
  obtain ⟨second, hsecond⟩ := hr.above op.priority
  exact ⟨_, Result.bind_eq_ok.mpr ⟨first, hfirst, Result.bind_eq_ok.mpr ⟨second, hsecond, rfl⟩⟩⟩

theorem binary (hl : Prints cx left) (hr : Prints cx right) (op : BinaryOp) (ty : Ty)
    (hplain : cx.isPlain (.binary left op right ty) = true) :
    Prints cx (.binary left op right ty) := by
  obtain ⟨code, hcode⟩ := hl.infixed hr op
  unfold Prints
  rw [Context.code]
  change ∃ code, cx.binary op ty (cx.operand left) (cx.operand right) = .ok code
  unfold Context.binary
  cases ht : cx.target with
  | actionScript =>
      simp only [ActionScript.binary]
      split_ifs with hdiv
      · rw [hdiv.1] at hcode
        exact ⟨_, Result.bind_eq_ok.mpr ⟨code, hcode, rfl⟩⟩
      · exact ⟨code, hcode⟩
  | cFamily d =>
      have hstrings : ¬((op = .eq ∨ op = .notEq) ∧
          CFamily.comparesStrings left.ty right.ty = true) := by
        rintro ⟨hop, hcompares⟩
        simp only [Context.isPlain, ht] at hplain
        simp only [CFamily.comparesStrings, Bool.or_eq_true, Bool.and_eq_true] at hcompares
        rcases hop with rfl | rfl <;> rcases hcompares with h | h <;> simp_all
      exact ⟨code, by rw [← hcode]; exact if_neg hstrings⟩

theorem unary (h : Prints cx e) (op : UnaryOp) (ty : Ty) : Prints cx (.unary op e ty) := by
  obtain ⟨group, hgroup⟩ := h.parenthesized
  unfold Prints
  rw [Context.code]
  change ∃ code, Context.unary op (cx.operand e) = .ok code
  unfold Context.unary
  split_ifs
  · obtain ⟨base, hbase⟩ := h.atLeast .postfixed
    exact ⟨_, Result.bind_eq_ok.mpr ⟨base, hbase, rfl⟩⟩
  · obtain ⟨operand, hoperand⟩ := h.atLeast .prefixed
    unfold Operand.prefixed
    split_ifs
    · exact ⟨_, Result.bind_eq_ok.mpr ⟨group, hgroup, rfl⟩⟩
    · exact ⟨_, Result.bind_eq_ok.mpr ⟨operand, hoperand, rfl⟩⟩

theorem arguments {args : List Expr} (h : ∀ e ∈ args, Prints cx e) :
    ∃ codes, (args.map cx.operand).mapM (Operand.atLeast .argument) = .ok codes := by
  refine exists_mapM_eq_ok fun o ho => ?_
  obtain ⟨e, he, rfl⟩ := List.mem_map.mp ho
  exact (h e he).atLeast .argument

/-- A call of a method on an instance. -/
theorem userCall {receiver : Option Expr} {owner : ClassId} {name : String} {args : List Expr}
    (hr : ∀ e ∈ receiver, Prints cx e) (ha : ∀ e ∈ args, Prints cx e) (ty : Ty)
    (hplain : cx.isPlain (.call receiver (.user owner name false) args ty) = true) :
    Prints cx (.call receiver (.user owner name false) args ty) := by
  obtain ⟨codes, hcodes⟩ := arguments ha
  unfold Prints
  rw [Context.code, Context.receiverOperand_eq, Context.operands_eq, Context.userCall]
  cases ht : cx.target with
  | actionScript =>
      have hargs : Operand.arguments (args.map cx.operand) =
          .ok (.parenthesized (.commaSeparated codes)) :=
        Result.bind_eq_ok.mpr ⟨codes, hcodes, rfl⟩
      cases receiver with
      | none => exact ⟨_, Result.bind_eq_ok.mpr ⟨[], rfl, Result.bind_eq_ok.mpr ⟨_, hargs, rfl⟩⟩⟩
      | some obj =>
          obtain ⟨base, hbase⟩ := (hr obj rfl).atLeast .postfixed
          exact ⟨_, Result.bind_eq_ok.mpr ⟨base, hbase, Result.bind_eq_ok.mpr
            ⟨_, rfl, Result.bind_eq_ok.mpr ⟨_, hargs, rfl⟩⟩⟩⟩
  | cFamily d =>
      obtain ⟨c, hclass⟩ : ∃ c, cx.classOf owner = .ok c := by
        simp only [Context.isPlain, ht, Bool.and_eq_true] at hplain
        obtain ⟨c, hc⟩ := Option.isSome_iff_exists.mp hplain.2
        refine ⟨c, ?_⟩
        rw [Context.class?] at hc
        simp [Context.classOf, Program.classOf, hc, lookedUp]
      obtain ⟨self, hself⟩ : ∃ self,
          CFamily.instanceArgument (receiver.map cx.operand) = .ok self := by
        cases receiver with
        | none => exact ⟨_, rfl⟩
        | some obj =>
            simp only [Option.map_some, CFamily.instanceArgument]
            split
            · obtain ⟨inner, hinner⟩ := (hr obj rfl).atLeast .prefixed
              exact ⟨_, Result.bind_eq_ok.mpr ⟨inner, hinner, rfl⟩⟩
            · exact hr obj rfl
      exact ⟨_, Result.bind_eq_ok.mpr ⟨c, hclass, Result.bind_eq_ok.mpr ⟨self, hself,
        Result.bind_eq_ok.mpr ⟨_, rfl, Result.bind_eq_ok.mpr ⟨codes, hcodes, rfl⟩⟩⟩⟩⟩

theorem enumValue {id : EnumId} {index : UInt64} (ty : Ty)
    (h : cx.hasEnumValue id index = true) : Prints cx (.enumValue id index ty) := by
  unfold Context.hasEnumValue at h
  cases hfound : cx.program.enums[id.index.toNat]? with
  | none => simp [hfound] at h
  | some e =>
      have hindex : index.toNat < e.values.length := by simpa [hfound] using h
      have henum : cx.enumOf id = .ok e := by
        simp [Context.enumOf, Program.enumOf, hfound, lookedUp]
      unfold Prints
      rw [Context.code, Context.enumValue, henum]
      simp only [bind, Except.bind, List.getElem?_eq_getElem hindex]
      cases cx.target <;> exact ⟨_, rfl⟩

end Prints

theorem prints_of_isPlain {cx : Context} {e : Expr} (h : e.everywhere cx.isPlain = true) :
    Prints cx e := by
  induction e using Expr.inductOn with
  | h e ih =>
      obtain ⟨he, hchildren⟩ := Expr.everywhere_iff.mp h
      have ih : ∀ child ∈ e.children, Prints cx child := fun child hchild =>
        ih child hchild (hchildren child hchild)
      cases e with
      | literal value ty => cases value with
        | float x => simp [Context.isPlain] at he
        | _ => exact ⟨_, rfl⟩
      | var name ty => exact ⟨_, rfl⟩
      | this ty => exact ⟨_, rfl⟩
      | enumValue id i ty => exact .enumValue ty he
      | field obj name ty =>
          obtain ⟨base, hbase⟩ := (ih obj (by simp [Expr.children])).atLeast .postfixed
          unfold Prints
          rw [Context.code]
          change ∃ code, cx.field (cx.operand obj) name = .ok code
          unfold Context.field
          cases cx.target <;> exact ⟨_, Result.bind_eq_ok.mpr ⟨base, hbase, rfl⟩⟩
      | call receiver callee args ty =>
          have hr : ∀ e ∈ receiver, Prints cx e := by
            rintro e rfl
            exact ih e (by simp [Expr.children])
          have ha : ∀ e ∈ args, Prints cx e := fun e hmem => ih e (by simp [Expr.children, hmem])
          cases callee with
          | builtin m => simp [Context.isPlain] at he
          | user owner name isStatic => cases isStatic with
            | true => simp [Context.isPlain] at he
            | false => exact .userCall hr ha ty he
      | index array position ty =>
          obtain ⟨base, hbase⟩ := (ih array (by simp [Expr.children])).atLeast .postfixed
          obtain ⟨inner, hinner⟩ := ih position (by simp [Expr.children])
          exact ⟨_, Result.bind_eq_ok.mpr ⟨base, hbase, Result.bind_eq_ok.mpr ⟨inner, hinner, rfl⟩⟩⟩
      | unary op operand ty => exact (ih operand (by simp [Expr.children])).unary op ty
      | binary left op right ty =>
          exact .binary (ih left (by simp [Expr.children])) (ih right (by simp [Expr.children]))
            op ty he
      | select cond onTrue onFalse ty =>
          obtain ⟨first, hfirst⟩ := (ih cond (by simp [Expr.children])).atLeast .condOr
          obtain ⟨second, hsecond⟩ := (ih onTrue (by simp [Expr.children])).atLeast .select
          obtain ⟨third, hthird⟩ := (ih onFalse (by simp [Expr.children])).atLeast .select
          exact ⟨_, Result.bind_eq_ok.mpr ⟨first, hfirst, Result.bind_eq_ok.mpr
            ⟨second, hsecond, Result.bind_eq_ok.mpr ⟨third, hthird, rfl⟩⟩⟩⟩
      | _ => simp [Context.isPlain] at he

/-- A plain expression is printed, and its text is one expression that has the tree of the source
and no other. -/
theorem exists_readsAs_of_isPlain {cx : Context} (hnamed : cx.program.Named cx.target) {e : Expr}
    (h : e.everywhere cx.isPlain = true) :
    ∃ code, cx.code e = .ok code ∧ code.ReadsAs cx.target (cx.tree e) := by
  obtain ⟨code, hcode⟩ := prints_of_isPlain h
  exact ⟨code, hcode, readsAs_tree hnamed (Context.everywhere_isNamed_of_isPlain h)
    (Context.everywhere_isLegible_of_isPlain h) hcode⟩

/-- The difference of a quotient and a negated enumeration value, with a call as the divisor. -/
theorem exists_readsAs_difference :
    let color : EnumDef := ⟨"Color", .exported, none, [⟨"Red", none⟩]⟩
    let cx : Context := ⟨⟨[color], [], [], [], .empty⟩, .actionScript, none⟩
    let divisor : Expr :=
      .call (some (.var "Item" (.classRef ⟨0⟩))) (.user ⟨0⟩ "Size" false) [.ofInt (-5)] (.int .int)
    let e : Expr := .binary (.binary (.ofInt (-7)) .div divisor (.int .int)) .sub
      (.unary .neg (.enumValue ⟨0⟩ 0 (.enumeration ⟨0⟩)) (.int .int)) (.int .int)
    cx.program.Named cx.target ∧ e.everywhere cx.isPlain = true ∧
      ∃ code, cx.code e = .ok code ∧ code.ReadsAs cx.target (cx.tree e) := by
  intro color cx divisor e
  have hnamed : cx.program.Named cx.target := by
    refine ⟨fun enum henum => ?_, by simp [cx]⟩
    obtain rfl : enum = color := by simpa [cx] using henum
    decide
  have hplain : e.everywhere cx.isPlain = true := by decide
  exact ⟨hnamed, hplain, exists_readsAs_of_isPlain hnamed hplain⟩

end Emitter
