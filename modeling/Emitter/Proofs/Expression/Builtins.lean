import Emitter.Proofs.Expression.Calls

/-!
# Built-ins read as their templates

What each target puts in place of a property or a method of the source language. A factor of
`MulDiv` that is itself a product or a quotient stands there without parentheses, so its operators
come after the multiplication.
-/

namespace Emitter

open Layout Program Reading

variable {cx : Context} {strict : Bool} {code : Code}

/-- Behind a star, the printed form goes on with a product. -/
def Factored (cx : Context) (strict : Bool) (e : Expr) : Prop :=
  ∀ code, cx.code e = .ok code → .mul ≤ cx.target.priority e → ∀ {product : Code} {tree : Tree},
    Piece cx.target strict 10 product tree →
      Piece cx.target strict 10 (product ++ Code.operator "*" ++ code)
        (tree.graft (cx.factorDepth e) (cx.tree e))

theorem binaryLevel?_star : binaryLevel? "*" = some 10 := rfl

theorem factorDepth_eq_zero {e : Expr} (h : cx.target.priority e ≠ .mul) :
    cx.factorDepth e = 0 := by
  cases e with
  | binary => rw [Context.factorDepth, if_neg h]
  | _ => rfl

theorem Printed.factored {e : Expr} (h : Printed cx strict e)
    (hprio : cx.target.priority e ≠ .mul) : Factored cx strict e := by
  intro code hc hmul product tree hproduct
  have hlevel : 11 ≤ (cx.target.priority e).level := by
    revert hmul hprio
    cases cx.target.priority e <;> decide
  rw [factorDepth_eq_zero hprio]
  refine .binary _ binaryLevel?_star hproduct ((h code hc).piece.mono ?_)
  unfold Context.grade
  split_ifs
  · exact Nat.le_refl 11
  · exact hlevel

/-- A factor, with parentheses if it binds looser than a product. -/
theorem piece_product {factor : Expr} (h : Printed cx strict factor)
    (hfactored : Factored cx strict factor) {product : Code} {tree : Tree}
    (hproduct : Piece cx.target strict 10 product tree)
    (hc : (cx.operand factor).atLeast .mul = .ok code) :
    Piece cx.target strict 10 (product ++ Code.operator "*" ++ code)
      (cx.productTree tree (cx.term factor)) := by
  unfold Operand.atLeast at hc
  split_ifs at hc with hprio
  · have hpiece := h.parenthesized hc (Printed.ne_primary hprio)
    have hdepth : cx.factorDepth factor = 0 := factorDepth_eq_zero fun hmul => by
      rw [show (cx.operand factor).priority = .mul from hmul] at hprio
      exact absurd hprio (by decide)
    rw [Context.productTree, show cx.factorDepth (cx.term factor).expr = 0 from hdepth]
    exact .binary _ binaryLevel?_star hproduct (hpiece.mono (by decide))
  · exact hfactored code hc (Nat.le_of_not_lt hprio) hproduct

/-- What a target prints as a product is printed by the operator. -/
theorem op_of_priority_mul {op : BinaryOp} {left right : Expr} {ty : Ty}
    (h : cx.target.priority (.binary left op right ty) = .mul) :
    op.priority = .mul ∧
      cx.binary op ty (cx.operand left) (cx.operand right) =
        (cx.operand left).infixed op (cx.operand right) ∧
      cx.tree (.binary left op right ty) = .binary op.text (cx.tree left) (cx.tree right) := by
  cases ht : cx.target with
  | actionScript =>
      rw [ht] at h
      have hop : op.priority = .mul := by
        cases op <;> simp_all [Target.priority, Expr.priority, BinaryOp.priority]
      have hdiv : ¬(op = .div ∧ ty.isInteger = true) := by
        rintro ⟨rfl, hinteger⟩
        simp [Target.priority, hinteger] at h
      refine ⟨hop, ?_, ?_⟩
      · simp only [Context.binary, ht]
        exact if_neg hdiv
      · simp only [Context.tree, Context.binaryTree, ht]
        exact if_neg hdiv
  | cFamily d =>
      rw [ht] at h
      have hop : op.priority = .mul := h
      have hequal : ¬((op = .eq ∨ op = .notEq) ∧
          CFamily.comparesStrings left.ty right.ty = true) := by
        rintro ⟨rfl | rfl, -⟩ <;> simp [BinaryOp.priority] at hop
      refine ⟨hop, ?_, ?_⟩
      · simp only [Context.binary, ht]
        exact if_neg hequal
      · simp only [Context.tree, Context.binaryTree, ht]
        exact if_neg hequal

theorem factored_binary {op : BinaryOp} {left right : Expr} (ty : Ty)
    (hl : Printed cx strict left) (hfactored : Factored cx strict left)
    (hr : Printed cx strict right) (h : Printed cx strict (.binary left op right ty)) :
    Factored cx strict (.binary left op right ty) := by
  by_cases hprio : cx.target.priority (.binary left op right ty) = .mul
  · intro code hc _ product tree hproduct
    obtain ⟨hop, hcode, htree⟩ := op_of_priority_mul hprio
    have hc : (cx.operand left).infixed op (cx.operand right) = .ok code := by
      rw [Context.code] at hc
      exact hcode ▸ hc
    obtain ⟨first, hfirst, hc⟩ := Result.bind_eq_ok.mp hc
    obtain ⟨second, hsecond, hc⟩ := Result.bind_eq_ok.mp hc
    obtain rfl := Except.ok.inj hc
    rw [hop] at hfirst hsecond
    have hdepth : cx.factorDepth (.binary left op right ty) = cx.factorDepth left + 1 := by
      rw [Context.factorDepth, if_pos hprio]
    have hleft := piece_product hl hfactored hproduct hfirst
    have hlevel : binaryLevel? op.text = some 10 := by rw [binaryLevel?_text, hop]; rfl
    rw [hdepth, htree, Tree.graft]
    simpa [Context.productTree, Context.term] using
      Piece.binary _ hlevel hleft (hr.above (by decide) (by decide) hsecond)
  · exact h.factored hprio

/-- The product of two operands, divided by a third one. -/
theorem piece_quotient {factor divisor : Expr} (h : Printed cx strict factor)
    (hfactored : Factored cx strict factor) (hd : Printed cx strict divisor)
    {product first second : Code} {tree : Tree} (hproduct : Piece cx.target strict 10 product tree)
    (hfirst : (cx.operand factor).atLeast .mul = .ok first)
    (hsecond : (cx.operand divisor).above .mul = .ok second) :
    Piece cx.target strict 10
      (product ++ Code.operator "*" ++ first ++ Code.operator "/" ++ second)
      (.binary "/" (cx.productTree tree (cx.term factor)) (cx.tree divisor)) :=
  .binary _ rfl (piece_product h hfactored hproduct hfirst)
    (hd.above (by decide) (by decide) hsecond)

theorem numeral (text : String) (h : isNumber text = true)
    (hlast : ∀ c ∈ text.toList.getLast?, c ∉ ['e', 'E', 'p', 'P']) (level : Nat)
    (hlevel : level ≤ 13) : Piece cx.target strict level [.number text] (.number text) :=
  (Piece.number h hlast).mono hlevel

theorem piece_actionScriptProperty {obj : Expr} {accessor : BuiltinProperty}
    (ht : cx.target = .actionScript) (h : Printed cx strict obj)
    (haccessor : accessor ≠ .stringLength)
    (hc : ActionScript.property accessor (cx.operand obj) = .ok code) (ty : Ty) :
    Piece cx.target strict (cx.target.priority (.property obj accessor ty)).level code
      (ActionScript.propertyTree accessor (cx.tree obj)) := by
  cases accessor with
  | signExtendByte =>
      obtain ⟨inner, hinner, hc⟩ := Result.bind_eq_ok.mp hc
      obtain rfl := Except.ok.inj hc
      have hxor : Piece cx.target strict 4 _ _ := .binary "^" rfl
        (h.operand .xor (by decide) hinner)
        (numeral "128" (by decide) (by decide) 5 (by decide))
      have hgroup := (hxor.mono (Nat.zero_le 4)).group (ht ▸ Context.not_isType_actionScript _)
      have hminus : Piece cx.target strict 9 _ _ := .binary "-" rfl
        (hgroup.mono (by decide)) (numeral "128" (by decide) (by decide) 10 (by decide))
      simpa [ht, Target.priority, Priority.level, ActionScript.propertyTree, Code.parenthesized]
        using hminus
  | lowByte =>
      obtain ⟨inner, hinner, hc⟩ := Result.bind_eq_ok.mp hc
      obtain rfl := Except.ok.inj hc
      have hand : Piece cx.target strict 5 _ _ := .binary "&" rfl
        (h.operand .and (by decide) hinner)
        (numeral "0xff" (by decide) (by decide) 6 (by decide))
      simpa [ht, Target.priority, Priority.level, ActionScript.propertyTree] using hand
  | stringLength => exact absurd rfl haccessor

/-- A cast to an integer type. -/
theorem piece_cast {d : Dialect} (kind : IntKind) (ht : cx.target = .cFamily d) {inner : Code}
    {tree : Tree} (h : Piece cx.target strict 11 inner tree) :
    Piece cx.target strict 11 (Code.parenthesized [d.intType kind] ++ .gap :: inner)
      (.cast [(d.intType kind).text] tree) := by
  have hname : (d.intType kind).Names (d.intType kind).text := by
    cases d <;> cases kind <;> first | exact .inl rfl | exact .inr ⟨_, rfl⟩
  have hword : isWord (d.intType kind).text = true ∧
      (d.intType kind).text ∈ typeWords (.cFamily d) := by
    cases d <;> cases kind <;> decide
  refine h.cast (.name hname hword.1) (fun x hx => ?_) ?_ (by simp) (by simpa [ht] using hword.2)
  · obtain rfl : d.intType kind = x := by simpa using hx
    rcases hname with hl | ⟨supplier, hl⟩ <;> rw [hl] <;> trivial
  · rcases hname with hl | ⟨supplier, hl⟩ <;> rw [hl] <;> rfl

theorem piece_castInt {d : Dialect} (ht : cx.target = .cFamily d) {inner : Code} {tree : Tree}
    (h : Piece cx.target strict 11 inner tree) :
    Piece cx.target strict 11 (Code.parenthesized [.word "int"] ++ .gap :: inner)
      (.cast ["int"] tree) := by
  have hint : d.intType .int = .word "int" := by cases d <;> rfl
  have hcast := piece_cast .int ht h
  rwa [hint] at hcast

theorem piece_castOperand {d : Dialect} {kind : IntKind} (ht : cx.target = .cFamily d) {e : Expr}
    (h : Printed cx strict e) (hc : CFamily.cast [d.intType kind] (cx.operand e) = .ok code) :
    Piece cx.target strict 11 code (.cast [(d.intType kind).text] (cx.tree e)) := by
  obtain ⟨inner, hinner, hc⟩ := Result.bind_eq_ok.mp hc
  obtain rfl := Except.ok.inj hc
  exact piece_cast kind ht (h.operand .prefixed (by decide) hinner)

/-- A cast, a sign of another kind, or a call: what starts with a parenthesis or a name and has the
priority of prefix operators. -/
theorem Reads.of_prefixed {e : Expr} (h : Piece cx.target strict 11 code (cx.tree e))
    (hprio : cx.target.priority e = .prefixed) (hnumber : cx.number? e = none)
    (hhead : ∀ x ∈ code.head?, ∀ s, x = .symbol s → s = "(") : Reads cx strict e code where
  piece := by
    have hzero : cx.isMinusZero e = false := by simp [Context.isMinusZero, hnumber]
    simpa [Context.grade, hzero, hprio, Priority.level] using h
  number _ hle := by
    rw [hprio] at hle
    exact absurd hle (by decide)
  sign _ _ x hx hsign := by
    rcases hsign with rfl | rfl <;> simpa using hhead _ hx _ rfl
  address _ _ x hx := by
    rintro rfl
    simpa using hhead _ hx _ rfl

theorem piece_stringLength {d : Dialect} (ht : cx.target = .cFamily d) {obj : Expr}
    (h : Printed cx strict obj) (hc : CFamily.stringLength d (cx.operand obj) = .ok code) :
    Piece cx.target strict 11 code (CFamily.propertyTree d .stringLength (cx.tree obj)) ∧
      ∀ x ∈ code.head?, ∀ s, x = .symbol s → s = "(" := by
  have hcall : ∀ {inner : Code} {supplier : Supplier}, cx.code obj = .ok inner →
      Piece cx.target strict 12 (.supplied "strlen" supplier :: inner.parenthesized)
        (.call (.name "strlen") [cx.tree obj]) := fun hinner =>
    ((Solid.ofWord (.inr ⟨_, rfl⟩) (by decide)).call_one
      ((h _ hinner).piece.mono (Nat.zero_le _))).piece
  unfold CFamily.stringLength at hc
  cases d with
  | standard =>
      obtain ⟨inner, hinner, hc⟩ := Result.bind_eq_ok.mp hc
      obtain rfl := Except.ok.inj hc
      obtain ⟨inner, hcode, rfl⟩ := Result.map_eq_ok.mp hinner
      refine ⟨piece_castInt ht ((hcall hcode).mono (by decide)), fun x hx s hs => ?_⟩
      obtain rfl := Option.some.inj hx
      exact (Lexeme.symbol.inj hs).symm
  | openCL =>
      obtain ⟨inner, hinner, hc⟩ := Result.bind_eq_ok.mp hc
      obtain rfl := Except.ok.inj hc
      obtain ⟨inner, hcode, rfl⟩ := Result.map_eq_ok.mp hinner
      refine ⟨(hcall hcode).mono (by decide), fun x hx s hs => ?_⟩
      obtain rfl := Option.some.inj hx
      simp at hs

theorem printed_property {obj : Expr} {accessor : BuiltinProperty} (ty : Ty)
    (h : Printed cx strict obj)
    (hlegible : strict = true → cx.isLegible (.property obj accessor ty) = true) :
    Printed cx strict (.property obj accessor ty) := by
  intro code hc
  rw [Context.code] at hc
  change cx.property accessor (cx.operand obj) = _ at hc
  unfold Context.property at hc
  have htree : cx.tree (.property obj accessor ty) = cx.propertyTree accessor (cx.tree obj) := rfl
  cases ht : cx.target with
  | actionScript =>
      simp only [ht] at hc
      simp only [Context.propertyTree, ht] at htree
      by_cases haccessor : accessor = .stringLength
      · subst haccessor
        obtain ⟨base, hbase, hc⟩ := Result.bind_eq_ok.mp hc
        obtain rfl := Except.ok.inj hc
        have hbare : strict = true → cx.isBareNumber obj = false := fun hs => by
          simpa [Context.isLegible, ht] using hlegible hs
        have hbase := h.base (fun hs => isMinusZero_of_isBareNumber (hbare hs)) hbase
        exact (hbase.member (.inl rfl) (.inl rfl) (by decide) fun hs _ => hbare hs).reads
          (Nat.le_refl 12) htree
      · refine .of_loose (htree ▸ piece_actionScriptProperty ht h haccessor hc ty) ?_ rfl
        rw [ht]
        cases accessor with
        | stringLength => exact absurd rfl haccessor
        | signExtendByte => exact show ¬Priority.prefixed ≤ .add by decide
        | lowByte => exact show ¬Priority.prefixed ≤ .and by decide
  | cFamily d =>
      simp only [ht] at hc
      simp only [Context.propertyTree, ht] at htree
      have hprio : cx.target.priority (.property obj accessor ty) = .prefixed := by rw [ht]; rfl
      have hcast : ∀ {kind : IntKind}, CFamily.cast [d.intType kind] (cx.operand obj) = .ok code →
          Piece cx.target strict 11 code (.cast [(d.intType kind).text] (cx.tree obj)) ∧
            ∀ x ∈ code.head?, ∀ s, x = .symbol s → s = "(" := by
        intro kind hc
        refine ⟨piece_castOperand ht h hc, fun x hx s hs => ?_⟩
        obtain ⟨inner, -, hc⟩ := Result.bind_eq_ok.mp hc
        obtain rfl := Except.ok.inj hc
        obtain rfl := Option.some.inj hx
        exact (Lexeme.symbol.inj hs).symm
      have hpiece : Piece cx.target strict 11 code
          (CFamily.propertyTree d accessor (cx.tree obj)) ∧
            ∀ x ∈ code.head?, ∀ s, x = .symbol s → s = "(" := by
        cases accessor with
        | signExtendByte => exact hcast hc
        | lowByte => exact hcast hc
        | stringLength => exact piece_stringLength ht h hc
      exact .of_prefixed (htree ▸ hpiece.1) hprio rfl hpiece.2

namespace ActionScript

/-- A function of a class that every program has. -/
theorem solid_selected {owner name : String} {l : Lexeme} (hl : l.Names name)
    (howner : isWord owner = true ∧ owner ∉ controlWords (.cFamily .standard))
    (hname : isWord name = true) :
    Solid cx strict 12 [.word owner, .symbol ".", l] (.member (.name owner) "." name) :=
  (Solid.ofWord (.inl rfl) howner).member (.inl rfl) hl hname

theorem solid_helperCall {helper : Helper} {name : String} (es : List Expr)
    (hname : isWord name = true) (h : ∀ e ∈ es, Printed cx strict e)
    (hc : helperCall helper name (es.map cx.operand) = .ok code) :
    Solid cx strict 12 code (Context.helperTree name (es.map cx.tree)) := by
  obtain ⟨args, hargs, hc⟩ := Result.bind_eq_ok.mp hc
  obtain rfl := Except.ok.inj hc
  exact (solid_selected (.inr ⟨_, rfl⟩) (by decide) hname).arguments h hargs

theorem solid_mathCall {name : String} {es : List Expr} (hname : isWord name = true)
    (h : ∀ e ∈ es, Printed cx strict e) (hc : mathCall name (es.map cx.operand) = .ok code) :
    Solid cx strict 12 code (.call (.member (.name "Math") "." name) (es.map cx.tree)) := by
  obtain ⟨args, hargs, hc⟩ := Result.bind_eq_ok.mp hc
  obtain rfl := Except.ok.inj hc
  exact (solid_selected (.inl rfl) (by decide) hname).arguments h hargs

theorem solid_substring {obj start length : Expr} (ho : Printed cx strict obj)
    (hs : Printed cx strict start) (hl : Printed cx strict length)
    (hbare : strict = true → start.hasSideEffect = false → cx.isBareNumber obj = false)
    (hc : substring (cx.operand obj) (cx.operand start) (cx.operand length) = .ok code) :
    Solid cx strict 12 code
      (methodTree cx (cx.term obj) .substring [cx.term start, cx.term length]) := by
  have heffect : (cx.term start).expr.hasSideEffect = start.hasSideEffect := rfl
  unfold substring at hc
  simp only [methodTree, heffect]
  change (if start.hasSideEffect = true then _ else _) = _ at hc
  split_ifs at hc ⊢ with hside
  · have hes : ∀ e ∈ [obj, start, length], Printed cx strict e := by
      simp only [List.forall_mem_cons]
      exact ⟨ho, hs, hl, by simp⟩
    exact solid_helperCall [obj, start, length] (by decide) hes hc
  · obtain ⟨base, hbase, hc⟩ := Result.bind_eq_ok.mp hc
    obtain ⟨first, hfirst, hc⟩ := Result.bind_eq_ok.mp hc
    obtain ⟨last, hlast, hc⟩ := Result.bind_eq_ok.mp hc
    obtain rfl := Except.ok.inj hc
    have hbare := fun hstrict => hbare hstrict (Bool.not_eq_true _ ▸ hside)
    have hbase := ho.base (fun hstrict => isMinusZero_of_isBareNumber (hbare hstrict)) hbase
    have hcallee := hbase.member (w := "substring") (.inl rfl) (.inl rfl) (by decide)
      fun hstrict _ => hbare hstrict
    have hargs :
        ∀ p ∈ [(first, cx.tree start), (last, .binary "+" (cx.tree start) (cx.tree length))],
        Piece cx.target strict 0 p.1 p.2 := by
      simp only [List.forall_mem_cons]
      exact ⟨hs.argument hfirst, (piece_infixed hs hl hlast).mono (Nat.zero_le _), by simp⟩
    exact hcallee.call hargs

theorem solid_method {obj : Expr} {m : BuiltinMethod} {args : List Expr}
    (ht : cx.target = .actionScript) (ho : Printed cx strict obj)
    (ha : ∀ e ∈ args, Printed cx strict e) (hfactored : ∀ e ∈ args, Factored cx strict e)
    (hlegible : strict = true → cx.allowsReceiver obj (.builtin m) args = true)
    (hc : method cx (cx.operand obj) m (args.map cx.operand) = .ok code) :
    Solid cx strict 12 code (methodTree cx (cx.term obj) m (args.map cx.term)) := by
  simp only [Context.allowsReceiver, ht] at hlegible
  unfold method at hc
  split at hc
  case h_1 o₁ o₂ hargs =>
    obtain ⟨factor, rest, rfl, rfl, hrest1⟩ := List.map_eq_cons_iff.mp hargs
    obtain ⟨divisor, rest, rfl, rfl, hrest2⟩ := List.map_eq_cons_iff.mp hrest1
    obtain rfl := List.map_eq_nil_iff.mp hrest2
    obtain ⟨product, hproduct, hc⟩ := Result.bind_eq_ok.mp hc
    obtain ⟨first, hfirst, hc⟩ := Result.bind_eq_ok.mp hc
    obtain ⟨second, hsecond, hc⟩ := Result.bind_eq_ok.mp hc
    obtain rfl := Except.ok.inj hc
    have hpiece := piece_quotient (ha factor (by simp)) (hfactored factor (by simp))
      (ha divisor (by simp)) (ho.operand .mul (by decide) hproduct)
      hfirst hsecond
    have hname : Solid cx strict 12 [.word "int"] (.name "int") := .ofWord (.inl rfl) (by decide)
    have hcall := hname.call_one (hpiece.mono (Nat.zero_le 10))
    simpa [Code.parenthesized, methodTree, Context.term] using hcall
  case h_2 o₁ hargs =>
    obtain ⟨position, rest, rfl, rfl, hrest1⟩ := List.map_eq_cons_iff.mp hargs
    obtain rfl := List.map_eq_nil_iff.mp hrest1
    obtain ⟨base, hbase, hc⟩ := Result.bind_eq_ok.mp hc
    obtain ⟨inner, hinner, hc⟩ := Result.bind_eq_ok.mp hc
    obtain rfl := Except.ok.inj hc
    have hbare : strict = true → cx.isBareNumber obj = false := fun hs => by simpa using hlegible hs
    have hbase := ho.base (fun hs => isMinusZero_of_isBareNumber (hbare hs)) hbase
    exact (hbase.member (.inl rfl) (.inl rfl) (by decide) fun hs _ => hbare hs).call_one
      ((ha position (by simp) inner hinner).piece.mono (Nat.zero_le _))
  case h_3 o₁ o₂ hargs =>
    obtain ⟨start, rest, rfl, rfl, hrest1⟩ := List.map_eq_cons_iff.mp hargs
    obtain ⟨length, rest, rfl, rfl, hrest2⟩ := List.map_eq_cons_iff.mp hrest1
    obtain rfl := List.map_eq_nil_iff.mp hrest2
    refine solid_substring ho (ha start (by simp)) (ha length (by simp)) (fun hs hside => ?_) hc
    simpa [hside] using hlegible hs
  case h_4 o₁ o₂ o₃ o₄ hargs =>
    obtain ⟨start, rest, rfl, rfl, hrest1⟩ := List.map_eq_cons_iff.mp hargs
    obtain ⟨target, rest, rfl, rfl, hrest2⟩ := List.map_eq_cons_iff.mp hrest1
    obtain ⟨targetStart, rest, rfl, rfl, hrest3⟩ := List.map_eq_cons_iff.mp hrest2
    obtain ⟨length, rest, rfl, rfl, hrest4⟩ := List.map_eq_cons_iff.mp hrest3
    obtain rfl := List.map_eq_nil_iff.mp hrest4
    exact solid_helperCall [obj, start, target, targetStart, length] (by decide)
      (List.forall_mem_cons.mpr ⟨ho, ha⟩) hc
  case h_5 o₁ o₂ hargs =>
    obtain ⟨start, rest, rfl, rfl, hrest1⟩ := List.map_eq_cons_iff.mp hargs
    obtain ⟨length, rest, rfl, rfl, hrest2⟩ := List.map_eq_cons_iff.mp hrest1
    obtain rfl := List.map_eq_nil_iff.mp hrest2
    exact solid_helperCall [obj, start, length] (by decide)
      (List.forall_mem_cons.mpr ⟨ho, ha⟩) hc
  case h_6 hargs =>
    obtain rfl := List.map_eq_nil_iff.mp hargs
    obtain ⟨inner, hinner, hc⟩ := Result.bind_eq_ok.mp hc
    obtain rfl := Except.ok.inj hc
    obtain ⟨inner, hcode, rfl⟩ := Result.map_eq_ok.mp hinner
    exact (solid_selected (.inr ⟨_, rfl⟩) (by decide) (by decide)).call_one
      ((ho inner hcode).piece.mono (Nat.zero_le _))
  case h_7 => simp [Context.unsupported] at hc

theorem solid_builtinCall {receiver : Option Expr} {m : BuiltinMethod} {args : List Expr}
    (ht : cx.target = .actionScript) (hr : ∀ e ∈ receiver, Printed cx strict e)
    (ha : ∀ e ∈ args, Printed cx strict e) (hfactored : ∀ e ∈ args, Factored cx strict e)
    (hlegible : strict = true →
      ∀ e ∈ receiver, cx.allowsReceiver e (.builtin m) args = true)
    (hc : builtinCall cx (receiver.map cx.operand) m (args.map cx.operand) = .ok code) :
    Solid cx strict 12 code
      (builtinTree cx (receiver.map cx.term) m (args.map cx.term)) := by
  unfold builtinCall at hc
  cases receiver with
  | some obj =>
      have hmethod : method cx (cx.operand obj) m (args.map cx.operand) = .ok code := by
        cases m with
        | consoleWrite => simp [Context.unmappedMethod] at hc
        | _ => exact hc
      exact solid_method ht (hr obj rfl) ha hfactored (fun hs => hlegible hs obj rfl) hmethod
  | none =>
      cases m with
      | consoleWriteLine =>
          have hshown : ∃ shown, code = .word "trace" :: Code.parenthesized shown ∧
              Piece cx.target strict 0 shown
                (((args.map cx.term).head?.map Term.tree).getD (.text "")) := by
            cases args with
            | nil =>
                obtain rfl := Except.ok.inj hc
                exact ⟨_, rfl, (Context.solid_text "").piece.mono (by decide)⟩
            | cons arg rest =>
                obtain ⟨shown, hshown, hc⟩ := Result.bind_eq_ok.mp hc
                obtain rfl := Except.ok.inj hc
                exact ⟨_, rfl, (ha arg (by simp) shown hshown).piece.mono (Nat.zero_le _)⟩
          obtain ⟨shown, rfl, hpiece⟩ := hshown
          exact (Solid.ofWord (.inl rfl) (by decide)).call_one hpiece
      | mathAbs =>
          simpa [builtinTree, Context.term, Function.comp_def] using
            solid_mathCall (by decide) ha hc
      | mathSqrt =>
          simpa [builtinTree, Context.term, Function.comp_def] using
            solid_mathCall (by decide) ha hc
      | _ => simp [Context.unsupported, Context.unmappedMethod] at hc

end ActionScript

namespace CFamily

variable {d : Dialect}

/-- The size of an array's first element. -/
theorem piece_elementSize {array : Expr} (ht : cx.target = .cFamily d)
    (h : Printed cx strict array) (hzero : strict = true → cx.isMinusZero array = false)
    (hc : elementSize (cx.operand array) = .ok code) :
    Piece cx.target strict 11 code (elementSizeTree (cx.tree array)) := by
  obtain ⟨base, hbase, hc⟩ := Result.bind_eq_ok.mp hc
  obtain rfl := Except.ok.inj hc
  have helement := (h.base hzero hbase).element
    (numeral "0" (by decide) (by decide) 0 (by decide))
  simpa [elementSizeTree] using
    (helement.piece.mono (Nat.zero_le 12)).sizeOf ht (Tree.not_isType rfl)

/-- Copying and clearing, where the size of an element reads as the given tree. -/
theorem solid_arrayMethod {array : Expr} {size : Tree} {m : BuiltinMethod} {args : List Expr}
    (h : Printed cx strict array) (ha : ∀ e ∈ args, Printed cx strict e)
    (hsize : ∀ code, elementSize (cx.operand array) = .ok code →
      Piece cx.target strict 11 code size)
    (hc : arrayMethod cx d (cx.operand array) m (args.map cx.operand) = .ok code) :
    Solid cx strict 12 code (arrayMethodTree d (cx.term array) size m (args.map cx.term)) := by
  unfold arrayMethod at hc
  split at hc
  case h_1 o₁ o₂ o₃ o₄ hargs =>
    obtain ⟨start, rest, rfl, rfl, hrest1⟩ := List.map_eq_cons_iff.mp hargs
    obtain ⟨target, rest, rfl, rfl, hrest2⟩ := List.map_eq_cons_iff.mp hrest1
    obtain ⟨targetStart, rest, rfl, rfl, hrest3⟩ := List.map_eq_cons_iff.mp hrest2
    obtain ⟨length, rest, rfl, rfl, hrest4⟩ := List.map_eq_cons_iff.mp hrest3
    obtain rfl := List.map_eq_nil_iff.mp hrest4
    obtain ⟨destination, hdestination, hc⟩ := Result.bind_eq_ok.mp hc
    obtain ⟨source, hsource, hc⟩ := Result.bind_eq_ok.mp hc
    obtain ⟨count, hcount, hc⟩ := Result.bind_eq_ok.mp hc
    obtain ⟨bytes, hbytes, hc⟩ := Result.bind_eq_ok.mp hc
    obtain rfl := Except.ok.inj hc
    simp only [List.forall_mem_cons] at ha
    obtain ⟨hstart, htarget, htargetStart, hlength, -⟩ := ha
    have hproduct : Piece cx.target strict 10 _ _ := .binary _ binaryLevel?_star
      (hlength.operand .mul (by decide) hcount) (hsize bytes hbytes)
    have hpieces : ∀ p ∈ [(destination, Tree.binary "+" (cx.tree target) (cx.tree targetStart)),
        (source, .binary "+" (cx.tree array) (cx.tree start)),
        (count ++ Code.operator "*" ++ bytes, .binary "*" (cx.tree length) size)],
        Piece cx.target strict 0 p.1 p.2 := by
      simp only [List.forall_mem_cons]
      exact ⟨(piece_infixed htarget htargetStart hdestination).mono (Nat.zero_le _),
        (piece_infixed h hstart hsource).mono (Nat.zero_le _), hproduct.mono (Nat.zero_le _),
        by simp⟩
    exact (Solid.ofWord (.inr ⟨_, rfl⟩) (by decide)).call hpieces
  case h_2 hargs =>
    obtain rfl := List.map_eq_nil_iff.mp hargs
    split at hc
    case h_1 element length hty =>
      obtain ⟨target, htarget, hc⟩ := Result.bind_eq_ok.mp hc
      obtain ⟨bytes, hbytes, hc⟩ := Result.bind_eq_ok.mp hc
      obtain rfl := Except.ok.inj hc
      have hcount : Piece cx.target strict 10 [.number (toString length.toNat)]
          (.number (toString length.toNat)) :=
        numeral _ (isNumeral_toString _).number (isNumeral_toString _).last 10 (by decide)
      have hproduct : Piece cx.target strict 10 _ _ :=
        .binary _ binaryLevel?_star hcount (hsize bytes hbytes)
      have hpieces : ∀ p ∈ [(target, cx.tree array), ([.number "0"], .number "0"),
          ([Lexeme.number (toString length.toNat)] ++ Code.operator "*" ++ bytes,
            .binary "*" (.number (toString length.toNat)) size)],
          Piece cx.target strict 0 p.1 p.2 := by
        simp only [List.forall_mem_cons]
        exact ⟨(h target htarget).piece.mono (Nat.zero_le _),
          numeral _ (by decide) (by decide) 0 (by decide), hproduct.mono (Nat.zero_le _), by simp⟩
      have hty : (cx.term array).expr.ty = .array element true (some length) := hty
      simp only [arrayMethodTree, hty, List.map_nil]
      exact (Solid.ofWord (.inr ⟨_, rfl⟩) (by decide)).call hpieces
    case h_2 => simp [Context.unsupported] at hc
  case h_3 => simp [Context.unmappedMethod] at hc

/-- A built-in method is a call or an element, and `MulDiv` a cast. -/
theorem piece_builtinCall {receiver : Option Expr} {m : BuiltinMethod} {args : List Expr}
    (ht : cx.target = .cFamily d) (hr : ∀ e ∈ receiver, Printed cx strict e)
    (ha : ∀ e ∈ args, Printed cx strict e) (hfactored : ∀ e ∈ args, Factored cx strict e)
    (hlegible : strict = true →
      ∀ e ∈ receiver, cx.allowsReceiver e (.builtin m) args = true)
    (hc : builtinCall cx d (receiver.map cx.operand) m (args.map cx.operand) = .ok code) :
    Solid cx strict 12 code (builtinTree cx d (receiver.map cx.term) m (args.map cx.term)) ∨
      m = .mulDiv ∧ Piece cx.target strict 11 code
        (builtinTree cx d (receiver.map cx.term) m (args.map cx.term)) ∧
          ∀ x ∈ code.head?, ∀ s, x = .symbol s → s = "(" := by
  unfold builtinCall at hc
  simp only [Context.allowsReceiver, ht] at hlegible
  split at hc
  case h_1 o o₁ o₂ hreceiver hargs =>
    obtain ⟨obj, rfl, rfl⟩ := Option.map_eq_some_iff.mp hreceiver
    obtain ⟨factor, rest, rfl, rfl, hrest1⟩ := List.map_eq_cons_iff.mp hargs
    obtain ⟨divisor, rest, rfl, rfl, hrest2⟩ := List.map_eq_cons_iff.mp hrest1
    obtain rfl := List.map_eq_nil_iff.mp hrest2
    obtain ⟨product, hproduct, hc⟩ := Result.bind_eq_ok.mp hc
    obtain ⟨first, hfirst, hc⟩ := Result.bind_eq_ok.mp hc
    obtain ⟨second, hsecond, hc⟩ := Result.bind_eq_ok.mp hc
    obtain rfl := Except.ok.inj hc
    have hcast := piece_castOperand ht (hr obj rfl) hproduct
    have hquotient := piece_quotient (ha factor (by simp)) (hfactored factor (by simp))
      (ha divisor (by simp)) (hcast.mono (by decide)) hfirst hsecond
    have hgroup := (hquotient.mono (Nat.zero_le 10)).group (Tree.not_isType rfl)
    refine .inr ⟨rfl, piece_castInt ht (hgroup.mono (by decide)), fun x hx s hs => ?_⟩
    obtain rfl := Option.some.inj hx
    exact (Lexeme.symbol.inj hs).symm
  case h_2 o o₁ hreceiver hargs =>
    obtain ⟨obj, rfl, rfl⟩ := Option.map_eq_some_iff.mp hreceiver
    obtain ⟨position, rest, rfl, rfl, hrest⟩ := List.map_eq_cons_iff.mp hargs
    obtain rfl := List.map_eq_nil_iff.mp hrest
    obtain ⟨base, hbase, hc⟩ := Result.bind_eq_ok.mp hc
    obtain ⟨inner, hinner, hc⟩ := Result.bind_eq_ok.mp hc
    obtain rfl := Except.ok.inj hc
    have hzero : strict = true → cx.isMinusZero obj = false := fun hs => by
      simpa using hlegible hs obj rfl
    have hposition := (ha position (by simp) inner hinner).piece.mono (Nat.zero_le _)
    left
    simpa [builtinTree, Context.term] using ((hr obj rfl).base hzero hbase).element hposition
  case h_3 => simp [Context.unmappedMethod] at hc
  case h_4 => simp [Context.unmappedMethod] at hc
  case h_5 o hreceiver =>
    obtain ⟨obj, rfl, rfl⟩ := Option.map_eq_some_iff.mp hreceiver
    have hzero : strict = true → cx.isMinusZero obj = false := fun hs => by
      simpa using hlegible hs obj rfl
    left
    exact solid_arrayMethod (hr obj rfl) ha
      (fun bytes hbytes => piece_elementSize ht (hr obj rfl) hzero hbytes) hc
  case h_6 o hreceiver =>
    obtain ⟨obj, rfl, rfl⟩ := Option.map_eq_some_iff.mp hreceiver
    have hzero : strict = true → cx.isMinusZero obj = false := fun hs => by
      simpa using hlegible hs obj rfl
    left
    exact solid_arrayMethod (hr obj rfl) ha
      (fun bytes hbytes => piece_elementSize ht (hr obj rfl) hzero hbytes) hc
  case h_7 o hreceiver hargs =>
    obtain rfl := Option.map_eq_none_iff.mp hreceiver
    obtain ⟨value, rest, rfl, rfl, hrest⟩ := List.map_eq_cons_iff.mp hargs
    obtain rfl := List.map_eq_nil_iff.mp hrest
    obtain ⟨printed, hprinted, hc⟩ := Result.bind_eq_ok.mp hc
    obtain rfl := Except.ok.inj hc
    left
    have hty : (cx.operand value).expr.ty = value.ty := rfl
    have hty' : (cx.term value).expr.ty = value.ty := rfl
    simp only [hty, List.map_cons, List.map_nil, Option.map_none, builtinTree, hty']
    split_ifs
    · exact (Solid.ofWord (.inr ⟨_, rfl⟩) (by decide)).arguments ha hprinted
    · exact (Solid.ofWord (.inr ⟨_, rfl⟩) (by decide)).arguments ha hprinted
  case h_8 o hreceiver hargs =>
    obtain rfl := Option.map_eq_none_iff.mp hreceiver
    obtain ⟨value, rest, rfl, rfl, hrest⟩ := List.map_eq_cons_iff.mp hargs
    obtain rfl := List.map_eq_nil_iff.mp hrest
    obtain ⟨printed, hprinted, hc⟩ := Result.bind_eq_ok.mp hc
    obtain rfl := Except.ok.inj hc
    left
    exact (Solid.ofWord (.inr ⟨_, rfl⟩) (by decide)).arguments ha hprinted
  case h_9 => simp [Context.unsupported] at hc

end CFamily

end Emitter
