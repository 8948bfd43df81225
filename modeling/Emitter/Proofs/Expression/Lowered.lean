import Emitter.Proofs.Expression.Misread

/-!
# Built-ins read as documented

The documented form of `a.MulDiv(b, c)` is `a * b / c` with the factor `b` as one operand. It is
printed without parentheses, though, and so a factor that is a product, a quotient or a remainder is
torn apart. Every other built-in reads as documented wherever it does not select something from a
number.
-/

namespace Emitter

open Layout Number Program Reading Text

namespace Program.Expr

/-- A property or method that the target has to find a form for. -/
def isBuiltin : Expr → Bool
  | .property .. | .call _ (.builtin _) _ _ => true
  | _ => false

end Program.Expr

namespace Context

/-- The product of a receiver and a factor, divided, and made an integer. -/
def mulDivTree (t : Target) (obj factor divisor : Tree) : Tree :=
  match t with
  | .actionScript => .call (.name "int") [.binary "/" (.binary "*" obj factor) divisor]
  | .cFamily d =>
    .cast ["int"]
      (.binary "/" (.binary "*" (.cast [(d.intType .long).text] obj) factor) divisor)

/-- The documented form of a built-in, with the trees of its operands in it. -/
def template (cx : Context) : Expr → Tree
  | .call (some obj) (.builtin .mulDiv) [factor, divisor] _ =>
    mulDivTree cx.target (cx.tree obj) (cx.tree factor) (cx.tree divisor)
  | e => cx.tree e

/-- The expression is no `MulDiv` by a factor that is printed as a product. -/
def keepsFactor (cx : Context) : Expr → Bool
  | .call (some _) (.builtin .mulDiv) [factor, _] _ => cx.target.priority factor ≠ .mul
  | _ => true

end Context

namespace Reading.Tree

/-- A product with a factor that is torn apart is no product with the whole factor. -/
theorem graft_ne (left first second : Tree) (op : String) (depth : Nat) :
    left.graft (depth + 1) (.binary op first second) ≠
      .binary "*" left (.binary op first second) := by
  intro h
  have hsecond : second = .binary op first second := (Tree.binary.inj h).2.2
  have hsize := congrArg sizeOf hsecond
  simp only [binary.sizeOf_spec] at hsize
  omega

end Reading.Tree

variable {cx : Context} {e : Expr} {code : Code}

theorem productTree_eq_iff {left : Tree} {factor : Expr} :
    cx.productTree left (cx.term factor) = .binary "*" left (cx.tree factor) ↔
      cx.target.priority factor ≠ .mul := by
  constructor
  · intro h hprio
    cases factor with
    | binary first op second ty =>
        obtain ⟨-, -, htree⟩ := op_of_priority_mul hprio
        have hdepth : cx.factorDepth (.binary first op second ty) = cx.factorDepth first + 1 := by
          rw [Context.factorDepth, if_pos hprio]
        simp only [Context.productTree, Context.term, hdepth, htree] at h
        exact Tree.graft_ne _ _ _ _ _ h
    | _ => exact priority_ne_mul (by simp) hprio
  · intro hprio
    have hdepth : cx.factorDepth (cx.term factor).expr = 0 := factorDepth_eq_zero hprio
    rw [Context.productTree, hdepth]
    cases h : cx.tree factor <;> simp [Context.term, Tree.graft, h]

/-- Only a torn factor tells a built-in's tree from its template. -/
theorem tree_eq_template_iff : cx.tree e = cx.template e ↔ cx.keepsFactor e = true := by
  unfold Context.template Context.keepsFactor
  split
  case h_1 obj factor divisor ty =>
    rw [tree_builtinCall, decide_eq_true_eq]
    cases ht : cx.target with
    | actionScript =>
        rw [← ht, ← @productTree_eq_iff cx (cx.tree obj)]
        simp [ActionScript.builtinTree, ActionScript.methodTree, Context.mulDivTree, Context.term,
          ht]
    | cFamily d =>
        rw [← ht, ← @productTree_eq_iff cx (.cast [(d.intType .long).text] (cx.tree obj))]
        simp [CFamily.builtinTree, Context.mulDivTree, Context.term, ht]
  case h_2 => simp

/-! A number takes a point behind it for its own, so a member of a number is not read as one.
ActionScript is printed without parentheses there. -/

namespace ActionScript

/-- The length of a number is read as a number. -/
theorem not_readsAs_length {obj : Expr} (ty : Ty) (ht : cx.target = .actionScript)
    (hbare : cx.isBareNumber obj = true)
    (hc : cx.code (.property obj .stringLength ty) = .ok code) :
    ¬code.ReadsAs cx.target (cx.tree (.property obj .stringLength ty)) := by
  rw [Context.code, Context.property] at hc
  simp only [ht] at hc
  obtain ⟨base, hbase, hc⟩ := Result.bind_eq_ok.mp hc
  obtain rfl := Except.ok.inj hc
  obtain ⟨text, htext, hbase⟩ := base_of_isBareNumber hbare (ht ▸ hbase)
  have htree : cx.tree (.property obj .stringLength ty) = .member (cx.tree obj) "." "length" := by
    simp [Context.tree, Context.propertyTree, ht, propertyTree]
  rw [htree]
  exact not_readsAs_member htext (by decide) (by decide) (hbase.imp_right And.right)

/-- A method of a number is read as a call of a number. -/
theorem not_readsAs_method {obj : Expr} {m : BuiltinMethod} {args : List Expr} (ty : Ty)
    (ht : cx.target = .actionScript) (ha : ∀ e ∈ args, Printed cx true e)
    (h : cx.allowsReceiver obj (.builtin m) args = false)
    (hc : cx.code (.call (some obj) (.builtin m) args ty) = .ok code) :
    ¬code.ReadsAs cx.target (cx.tree (.call (some obj) (.builtin m) args ty)) := by
  rw [code_builtinCall] at hc
  rw [tree_builtinCall]
  simp only [ht] at hc ⊢
  rw [← ht]
  cases m with
  | charAt =>
      have hbare : cx.isBareNumber obj = true := by simpa [Context.allowsReceiver, ht] using h
      replace hc : method cx (cx.operand obj) .charAt (args.map cx.operand) = .ok code := hc
      unfold method at hc
      split at hc
      case h_2 o hargs =>
        obtain ⟨position, rest, rfl, rfl, hrest⟩ := List.map_eq_cons_iff.mp hargs
        obtain rfl := List.map_eq_nil_iff.mp hrest
        obtain ⟨base, hbase, hc⟩ := Result.bind_eq_ok.mp hc
        obtain ⟨inner, hinner, hc⟩ := Result.bind_eq_ok.mp hc
        obtain rfl := Except.ok.inj hc
        obtain ⟨text, htext, hbase⟩ := base_of_isBareNumber hbare hbase
        have hposition : ∀ p ∈ [(inner, cx.tree position)], Piece cx.target true 0 p.1 p.2 := by
          simpa using (ha position (by simp) inner hinner).piece.mono (Nat.zero_le _)
        have hmisread := @not_readsAs_methodCall base cx.target text "charCodeAt" (cx.tree obj) _
          htext (by decide) (by decide) (hbase.imp_right And.right) hposition
        simpa [builtinTree, methodTree, Context.term, Code.commaSeparated] using hmisread
      all_goals simp_all [Context.unsupported]
  | substring =>
      replace hc : method cx (cx.operand obj) .substring (args.map cx.operand) = .ok code := hc
      unfold method at hc
      split at hc
      case h_3 o₁ o₂ hargs =>
        obtain ⟨start, rest, rfl, rfl, hrest1⟩ := List.map_eq_cons_iff.mp hargs
        obtain ⟨length, rest, rfl, rfl, hrest2⟩ := List.map_eq_cons_iff.mp hrest1
        obtain rfl := List.map_eq_nil_iff.mp hrest2
        have hallows : start.hasSideEffect = false ∧ cx.isBareNumber obj = true := by
          simpa [Context.allowsReceiver, ht] using h
        obtain ⟨heffect, hbare⟩ := hallows
        have heffect' : (cx.operand start).expr.hasSideEffect = false := heffect
        unfold substring at hc
        rw [heffect'] at hc
        obtain ⟨base, hbase, hc⟩ := Result.bind_eq_ok.mp hc
        obtain ⟨first, hfirst, hc⟩ := Result.bind_eq_ok.mp hc
        obtain ⟨last, hlast, hc⟩ := Result.bind_eq_ok.mp hc
        obtain rfl := Except.ok.inj hc
        obtain ⟨text, htext, hbase⟩ := base_of_isBareNumber hbare hbase
        simp only [List.forall_mem_cons] at ha
        obtain ⟨hstart, hlength, -⟩ := ha
        have hpieces : ∀ p ∈ [(first, cx.tree start),
            (last, .binary "+" (cx.tree start) (cx.tree length))],
            Piece cx.target true 0 p.1 p.2 := by
          simp only [List.forall_mem_cons]
          exact ⟨hstart.argument hfirst,
            (piece_infixed hstart hlength hlast).mono (Nat.zero_le _), by simp⟩
        have hmisread := @not_readsAs_methodCall base cx.target text "substring" (cx.tree obj) _
          htext (by decide) (by decide) (hbase.imp_right And.right) hpieces
        simpa [builtinTree, methodTree, heffect, Context.term] using hmisread
      all_goals simp_all [Context.unsupported]
  | _ => simp [Context.allowsReceiver, ht] at h

end ActionScript

namespace CFamily

variable {d : Dialect}

/-- The size of an element of `-0.0` is read as that of a number below zero. -/
theorem exists_size_of_isMinusZero {array : Expr} (ht : cx.target = .cFamily d)
    (hzero : cx.isMinusZero array = true) :
    ∃ size, size ≠ elementSizeTree (cx.tree array) ∧
      ∀ code, elementSize (cx.operand array) = .ok code → Piece cx.target true 11 code size := by
  by_cases hprints : ∃ base, (cx.operand array).atLeast .postfixed = .ok base
  · obtain ⟨base, hbase⟩ := hprints
    obtain ⟨text, htext, rfl | ⟨hnone, -⟩⟩ :=
      base_of_isBareNumber (isBareNumber_of_isMinusZero hzero) hbase
    · refine ⟨.prefixed "sizeof" (.prefixed "-" (.element (.number text) (.number "0"))),
        by simp [elementSizeTree], fun code hc => ?_⟩
      obtain ⟨base', hbase', hc⟩ := Result.bind_eq_ok.mp hc
      obtain rfl := Except.ok.inj hc
      obtain rfl := Except.ok.inj (hbase'.symm.trans hbase)
      have hposition : Piece cx.target true 0 [.number "0"] (.number "0") :=
        numeral "0" (by decide) (by decide) 0 (by decide)
      exact ((piece_elementOfMinusZero htext hposition).mono (by decide)).sizeOf ht
        (Tree.not_isType rfl)
    · simp [hnone] at hzero
  · refine ⟨.name "", by simp [elementSizeTree], fun code hc => ?_⟩
    obtain ⟨base, hbase, -⟩ := Result.bind_eq_ok.mp hc
    exact absurd ⟨base, hbase⟩ hprints

/-- Where copying and clearing are printed, their form shows the size of an element. -/
theorem arrayMethodTree_ne {array : Expr} {m : BuiltinMethod} {args : List Expr}
    {size size' : Tree} (hne : size ≠ size')
    (hc : arrayMethod cx d (cx.operand array) m (args.map cx.operand) = .ok code) :
    arrayMethodTree d (cx.term array) size m (args.map cx.term) ≠
      arrayMethodTree d (cx.term array) size' m (args.map cx.term) := by
  unfold arrayMethod at hc
  split at hc
  case h_1 o₁ o₂ o₃ o₄ hargs =>
    obtain ⟨start, rest, rfl, rfl, hrest1⟩ := List.map_eq_cons_iff.mp hargs
    obtain ⟨target, rest, rfl, rfl, hrest2⟩ := List.map_eq_cons_iff.mp hrest1
    obtain ⟨targetStart, rest, rfl, rfl, hrest3⟩ := List.map_eq_cons_iff.mp hrest2
    obtain ⟨length, rest, rfl, rfl, hrest4⟩ := List.map_eq_cons_iff.mp hrest3
    obtain rfl := List.map_eq_nil_iff.mp hrest4
    simpa [arrayMethodTree] using hne
  case h_2 hargs =>
    obtain rfl := List.map_eq_nil_iff.mp hargs
    split at hc
    case h_1 element length hty =>
      have hty : (cx.term array).expr.ty = .array element true (some length) := hty
      simpa [arrayMethodTree, hty] using hne
    case h_2 => simp [Context.unsupported] at hc
  case h_3 => simp [Context.unmappedMethod] at hc

/-- Minus zero as the receiver of a method is read with its sign in front. -/
theorem not_readsAs_method {array : Expr} {m : BuiltinMethod} {args : List Expr} (ty : Ty)
    (ht : cx.target = .cFamily d) (hr : Printed cx true array)
    (ha : ∀ e ∈ args, Printed cx true e)
    (h : cx.allowsReceiver array (.builtin m) args = false)
    (hc : cx.code (.call (some array) (.builtin m) args ty) = .ok code) :
    ¬code.ReadsAs cx.target (cx.tree (.call (some array) (.builtin m) args ty)) := by
  rw [code_builtinCall] at hc
  rw [tree_builtinCall]
  simp only [ht] at hc ⊢
  rw [← ht]
  have hcopies : ∀ {m : BuiltinMethod}, cx.isMinusZero array = true →
      arrayMethod cx d (cx.operand array) m (args.map cx.operand) = .ok code →
      ¬code.ReadsAs cx.target (arrayMethodTree d (cx.term array)
        (elementSizeTree (cx.tree array)) m (args.map cx.term)) := by
    intro m hzero hmethod hread
    obtain ⟨size, hne, hsize⟩ := exists_size_of_isMinusZero ht hzero
    have hread' := (solid_arrayMethod hr ha hsize hmethod).piece.readsAs
    exact arrayMethodTree_ne hne hmethod (hread'.unique hread rfl)
  cases m with
  | charAt =>
      have hzero : cx.isMinusZero array = true := by simpa [Context.allowsReceiver, ht] using h
      replace hc : builtinCall cx d (some (cx.operand array)) .charAt (args.map cx.operand) =
        .ok code := hc
      unfold builtinCall at hc
      split at hc
      case h_2 o o₁ hreceiver hargs =>
        obtain rfl := Option.some.inj hreceiver
        obtain ⟨position, rest, rfl, rfl, hrest⟩ := List.map_eq_cons_iff.mp hargs
        obtain rfl := List.map_eq_nil_iff.mp hrest
        obtain ⟨base, hbase, hc⟩ := Result.bind_eq_ok.mp hc
        obtain ⟨inner, hinner, hc⟩ := Result.bind_eq_ok.mp hc
        obtain rfl := Except.ok.inj hc
        obtain ⟨text, htext, rfl | ⟨hnone, -⟩⟩ :=
          base_of_isBareNumber (isBareNumber_of_isMinusZero hzero) hbase
        · have hposition := (ha position (by simp) inner hinner).piece.mono (Nat.zero_le _)
          intro hread
          have hread' := (piece_elementOfMinusZero htext hposition).readsAs
          have htree := hread.unique hread' (by simp)
          simp [builtinTree, Context.term] at htree
        · simp [hnone] at hzero
      all_goals simp_all [Context.unsupported]
  | arrayCopyTo =>
      exact hcopies (by simpa [Context.allowsReceiver, ht] using h) hc
  | arrayClear =>
      exact hcopies (by simpa [Context.allowsReceiver, ht] using h) hc
  | _ => simp [Context.allowsReceiver, ht] at h

end CFamily

/-- A built-in that selects something from a number is not read as its template. -/
theorem not_readsAs_template (hchildren : ∀ child ∈ e.children, Printed cx true child)
    (hbuiltin : e.isBuiltin = true) (h : cx.isLegible e = false) (hc : cx.code e = .ok code) :
    ¬code.ReadsAs cx.target (cx.template e) := by
  cases e with
  | property obj accessor ty =>
      cases accessor with
      | stringLength =>
          cases ht : cx.target with
          | actionScript =>
              have hbare : cx.isBareNumber obj = true := by simpa [Context.isLegible, ht] using h
              exact ht ▸ ActionScript.not_readsAs_length ty ht hbare hc
          | cFamily d => simp [Context.isLegible, ht] at h
      | _ => simp [Context.isLegible] at h
  | call receiver callee args ty =>
      cases callee with
      | user => simp [Expr.isBuiltin] at hbuiltin
      | builtin m =>
          cases receiver with
          | none => simp [Context.isLegible] at h
          | some obj =>
              have hobj : Printed cx true obj := hchildren obj (by simp [Expr.children])
              have hargs : ∀ arg ∈ args, Printed cx true arg := fun arg harg =>
                hchildren arg (by simp [Expr.children, harg])
              have hkeeps : cx.keepsFactor (.call (some obj) (.builtin m) args ty) = true := by
                cases m with
                | mulDiv => cases ht : cx.target <;>
                  simp [Context.isLegible, Context.allowsReceiver, ht] at h
                | _ => rfl
              rw [← tree_eq_template_iff.mpr hkeeps]
              cases ht : cx.target with
              | actionScript => exact ht ▸ ActionScript.not_readsAs_method ty ht hargs h hc
              | cFamily d => exact ht ▸ CFamily.not_readsAs_method ty ht hobj hargs h hc
  | _ => simp [Expr.isBuiltin] at hbuiltin

/-- Wherever the expression is the operand of an operator, the printed operation reads as that
operator with the whole expression as its operand. -/
structure StaysWhole (cx : Context) (e : Expr) : Prop where
  unary : ∀ op ty code, cx.code (.unary op e ty) = .ok code →
    code.ReadsAs cx.target (Context.unaryTree op (cx.tree e))
  left : ∀ op other ty code, other.everywhere Expr.isNamed = true →
    other.everywhere cx.isLegible = true → cx.code (.binary e op other ty) = .ok code →
    code.ReadsAs cx.target (cx.binaryTree op ty (cx.term e) (cx.term other))
  right : ∀ op other ty code, other.everywhere Expr.isNamed = true →
    other.everywhere cx.isLegible = true → cx.code (.binary other op e ty) = .ok code →
    code.ReadsAs cx.target (cx.binaryTree op ty (cx.term other) (cx.term e))
  select : ∀ a b ty code, a.everywhere Expr.isNamed = true → a.everywhere cx.isLegible = true →
    b.everywhere Expr.isNamed = true → b.everywhere cx.isLegible = true →
    (cx.code (.select e a b ty) = .ok code →
      code.ReadsAs cx.target (.select (cx.tree e) (cx.tree a) (cx.tree b))) ∧
    (cx.code (.select a e b ty) = .ok code →
      code.ReadsAs cx.target (.select (cx.tree a) (cx.tree e) (cx.tree b))) ∧
    (cx.code (.select a b e ty) = .ok code →
      code.ReadsAs cx.target (.select (cx.tree a) (cx.tree b) (cx.tree e)))

theorem number?_of_isBuiltin (h : e.isBuiltin = true) : cx.number? e = none := by
  cases e <;> simp_all [Expr.isBuiltin, Context.number?]

theorem isLegible_unary_of_isBuiltin (h : e.isBuiltin = true) (op : UnaryOp) (ty : Ty) :
    cx.isLegible (.unary op e ty) = true := by
  have hzero : cx.isMinusZero e = false := by simp [Context.isMinusZero, number?_of_isBuiltin h]
  have hhides : cx.hidesSign e = false := by
    cases e <;> simp_all [Expr.isBuiltin, Context.hidesSign]
  simp [Context.isLegible, hzero, hhides]

theorem staysWhole_of_isBuiltin (hnamed : cx.program.Named cx.target)
    (hbuiltin : e.isBuiltin = true) (hname : e.everywhere Expr.isNamed = true)
    (hlegible : e.everywhere cx.isLegible = true) : StaysWhole cx e where
  unary op ty code hc :=
    readsAs_tree hnamed (Expr.everywhere_iff.mpr ⟨rfl, by simpa [Expr.children] using hname⟩)
      (Expr.everywhere_iff.mpr ⟨isLegible_unary_of_isBuiltin hbuiltin op ty,
        by simpa [Expr.children] using hlegible⟩) hc
  left op other ty code hn hl hc :=
    readsAs_tree hnamed
      (Expr.everywhere_iff.mpr ⟨rfl, by simpa [Expr.children] using ⟨hname, hn⟩⟩)
      (Expr.everywhere_iff.mpr ⟨rfl, by simpa [Expr.children] using ⟨hlegible, hl⟩⟩) hc
  right op other ty code hn hl hc :=
    readsAs_tree hnamed
      (Expr.everywhere_iff.mpr ⟨rfl, by simpa [Expr.children] using ⟨hn, hname⟩⟩)
      (Expr.everywhere_iff.mpr ⟨rfl, by simpa [Expr.children] using ⟨hl, hlegible⟩⟩) hc
  select a b ty code hna hla hnb hlb := by
    have hselect : ∀ {c x y : Expr} {code : Code}, (∀ child ∈ [c, x, y],
        child.everywhere Expr.isNamed = true ∧ child.everywhere cx.isLegible = true) →
        cx.code (.select c x y ty) = .ok code →
        code.ReadsAs cx.target (.select (cx.tree c) (cx.tree x) (cx.tree y)) := by
      intro c x y code h hc
      have hname : Expr.everywhere Expr.isNamed (.select c x y ty) = true :=
        Expr.everywhere_iff.mpr ⟨rfl, fun child hchild => (h child hchild).1⟩
      have hlegible : Expr.everywhere cx.isLegible (.select c x y ty) = true :=
        Expr.everywhere_iff.mpr ⟨rfl, fun child hchild => (h child hchild).2⟩
      exact readsAs_tree hnamed hname hlegible hc
    exact ⟨hselect (by simp [*]), hselect (by simp [*]), hselect (by simp [*])⟩

/-- A printed built-in whose operands are legible reads as its documented template exactly if it
selects nothing from a number and is no `MulDiv` by a factor that is printed as a product. Unless it
selects something from a number, it stays whole in every operation on it. -/
theorem readsAs_template_iff (hnamed : cx.program.Named cx.target) (hbuiltin : e.isBuiltin = true)
    (hname : e.everywhere Expr.isNamed = true)
    (hoperands : ∀ child ∈ e.children, child.everywhere cx.isLegible = true)
    (hc : cx.code e = .ok code) :
    (code.ReadsAs cx.target (cx.template e) ↔
      cx.isLegible e = true ∧ cx.keepsFactor e = true) ∧
    (cx.isLegible e = true → StaysWhole cx e) := by
  have hchildren : ∀ child ∈ e.children, Printed cx true child := fun child hchild =>
    (sound hnamed child ((Expr.everywhere_iff.mp hname).2 child hchild)
      fun _ => hoperands child hchild).printed
  have hwhole : cx.isLegible e = true → e.everywhere cx.isLegible = true := fun hlegible =>
    Expr.everywhere_iff.mpr ⟨hlegible, hoperands⟩
  refine ⟨⟨fun hread => ?_, ?_⟩, fun hlegible =>
    staysWhole_of_isBuiltin hnamed hbuiltin hname (hwhole hlegible)⟩
  · have hlegible : cx.isLegible e = true := by
      by_contra hillegible
      exact not_readsAs_template hchildren hbuiltin (Bool.not_eq_true _ ▸ hillegible) hc hread
    have hread' := readsAs_tree hnamed hname (hwhole hlegible) hc
    exact ⟨hlegible, tree_eq_template_iff.mp (hread'.unique hread rfl)⟩
  · rintro ⟨hlegible, hkeeps⟩
    exact tree_eq_template_iff.mpr hkeeps ▸ readsAs_tree hnamed hname (hwhole hlegible) hc

/-- A sum as the factor is one operand of the product. -/
theorem readsAs_template_mulDiv_sum :
    let cx : Context := ⟨.empty, .cFamily .standard, none⟩
    let name (text : String) : Expr := .var text (.int .int)
    let factor : Expr := .binary (name "a") .add (name "b") (.int .int)
    let e : Expr := .call (some (name "x")) (.builtin .mulDiv) [factor, name "c"] (.int .int)
    ∃ code, cx.code e = .ok code ∧ code.text = "(int) ((int64_t) x * (a + b) / c)" ∧
      (code.ReadsAs cx.target (cx.template e) ↔
        cx.isLegible e = true ∧ cx.keepsFactor e = true) ∧
      (cx.isLegible e = true → StaysWhole cx e) := by
  intro cx name factor e
  have hnamed : cx.program.Named cx.target :=
    ⟨by simp [cx, Program.empty], by simp [cx, Program.empty]⟩
  exact ⟨_, rfl, by decide,
    readsAs_template_iff hnamed rfl (by decide) (by decide) rfl⟩

/-- A remainder as the factor is torn apart: its divisor divides the whole product. -/
theorem not_readsAs_template_mulDiv_remainder :
    let cx : Context := ⟨.empty, .cFamily .standard, none⟩
    let name (text : String) : Expr := .var text (.int .int)
    let factor : Expr := .binary (name "a") .mod (name "b") (.int .int)
    let e : Expr := .call (some (name "x")) (.builtin .mulDiv) [factor, name "c"] (.int .int)
    ∃ code, cx.code e = .ok code ∧ code.text = "(int) ((int64_t) x * a % b / c)" ∧
      ¬code.ReadsAs cx.target (cx.template e) := by
  intro cx name factor e
  have hnamed : cx.program.Named cx.target :=
    ⟨by simp [cx, Program.empty], by simp [cx, Program.empty]⟩
  refine ⟨_, rfl, by decide, fun hread => ?_⟩
  have hread' := readsAs_tree hnamed (e := e) (by decide) (by decide) rfl
  have hkeeps := tree_eq_template_iff.mp (hread'.unique hread rfl)
  revert hkeeps
  decide

end Emitter
