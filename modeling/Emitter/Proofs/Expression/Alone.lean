import Emitter.Proofs.Expression.Operations
import Emitter.Proofs.Reading.Spaced

/-!
# Operands that are read on their own

An expression whose printed text reads on its own as the expression's tree does so as an operand as
well. Its priority promises no tighter level than that of its tree's outermost operation, except
that a number with a sign is printed as primary where it stands for a constant or is `-0.0`. Nothing
is asked of names or numbers: what they spoil is already seen in the text alone.
-/

namespace Emitter

open Layout Program Reading

namespace Reading.Tree

theorem level_signed (negative : Bool) {magnitude : Tree} (h : 11 ≤ magnitude.level) :
    11 ≤ (signed negative magnitude).level := by
  cases negative with
  | true => exact Nat.le_refl 11
  | false => exact h

end Reading.Tree

namespace Context

open Layout.Code

variable {cx : Context} {e : Expr} {code : Code}

/-- Wherever the expression is printed, its text on its own reads as the expression's tree. -/
def ReadsAlone (cx : Context) (e : Expr) : Prop :=
  ∀ code, cx.code e = .ok code → code.ReadsAs cx.target (cx.tree e)

theorem level_enumTree (id : EnumId) (index : UInt64) : 11 ≤ (cx.enumTree id index).level := by
  unfold enumTree
  split
  · simp [noTree, Tree.level]
  split
  · simp [noTree, Tree.level]
  split <;> simp [Tree.level]

theorem level_integerTree (n : Int) : 11 ≤ (integerTree n).level :=
  Tree.level_signed _ (by simp [Tree.level])

theorem level_floatTree (x : Number.Binary64) : 11 ≤ (floatTree x).level := by
  unfold floatTree
  split_ifs
  · simp [Tree.level]
  · exact Tree.level_signed _ (by simp [Tree.level])
  · exact Tree.level_signed _ (by simp [Tree.level])

theorem level_valueTree (value : ConstValue) : 11 ≤ (cx.valueTree value).level := by
  cases value with
  | int n => exact level_integerTree n.toInt
  | float x => exact level_floatTree x
  | enumValue id index => exact level_enumTree id index
  | bool | str | array => simp [valueTree, truthTree, Tree.level]

theorem level_qualifiedTree (owner : ClassId) (c : ClassDef) (name : String) :
    11 ≤ (cx.qualifiedTree owner c name).level := by
  unfold qualifiedTree
  split_ifs <;> simp [Tree.level]

theorem level_constTree (owner : ClassId) (name : String) :
    11 ≤ (cx.constTree owner name).level := by
  unfold constTree
  split
  · simp [noTree, Tree.level]
  cases cx.target with
  | cFamily d => simp [Tree.level]
  | actionScript =>
      dsimp only
      split
      · exact level_valueTree _
      · exact level_qualifiedTree _ _ _

theorem level_userCallTree (receiver : Option Term) (owner : ClassId) (name : String)
    (isStatic : Bool) (args : List Term) :
    11 ≤ (cx.userCallTree receiver owner name isStatic args).level := by
  unfold userCallTree
  split
  · simp [Tree.level]
  · split <;> simp [noTree, Tree.level]

theorem level_asBuiltinTree (receiver : Option Term) (m : BuiltinMethod) (args : List Term) :
    11 ≤ (ActionScript.builtinTree cx receiver m args).level := by
  unfold ActionScript.builtinTree
  split
  · unfold ActionScript.methodTree
    split <;> try split_ifs
    all_goals simp [noTree, helperTree, Tree.level]
  all_goals simp [noTree, Tree.level]

theorem level_printTree (d : Dialect) (lineEnd : String) (args : List CFamily.ShownTerm) :
    11 ≤ (CFamily.printTree cx d lineEnd args).level := by
  have hprintf : ∀ format values, 11 ≤ (CFamily.printfTree d format values).level := by
    intro format values
    cases format <;> simp [CFamily.printfTree, noTree, Tree.level]
  unfold CFamily.printTree
  split
  · exact hprintf _ _
  · exact hprintf _ _
  · split <;> exact hprintf _ _
  · simp [noTree, Tree.level]

theorem level_builtinTree (d : Dialect) (receiver : Option Term) (m : BuiltinMethod)
    (args : List Term) : 11 ≤ (CFamily.builtinTree cx d receiver m args).level := by
  unfold CFamily.builtinTree
  split
  case h_3 | h_4 =>
    unfold CFamily.arrayMethodTree
    split <;> try split
    all_goals simp [noTree, Tree.level]
  all_goals simp [noTree, Tree.level]

theorem level_sumTree {sum : Tree} (h : 9 ≤ sum.level) (holes : List (Hole × Term)) :
    9 ≤ (sumTree sum holes).level := by
  induction holes generalizing sum with
  | nil => exact h
  | cons part rest ih => exact ih (by rw [Tree.level]; decide)

theorem level_interpolatedTree (holes : List (Hole × Term)) (suffix : String) :
    9 ≤ (interpolatedTree holes suffix).level := by
  unfold interpolatedTree
  split
  · simp [Tree.level]
  · dsimp only
    split_ifs
    · rw [Tree.level]; decide
    · exact level_sumTree (by rw [Tree.level]; decide) _

theorem level_binaryTree (left op right ty) :
    min 11 (cx.target.priority (.binary left op right ty)).level ≤
    (cx.tree (.binary left op right ty)).level := by
  have hop : ∀ l r : Tree, (Tree.binary op.text l r).level = op.priority.level := by
    intro l r
    rw [Tree.level, binaryLevel?_text]
    rfl
  rw [tree, binaryTree]
  cases cx.target with
  | actionScript =>
      dsimp only
      split_ifs with hquotient
      · exact (Nat.min_le_left _ _).trans (by simp [Tree.level])
      · refine (Nat.min_le_right _ _).trans ((hop _ _).symm ▸ ?_)
        cases op <;> simp_all [Target.priority, Expr.priority, BinaryOp.priority]
  | cFamily d =>
      refine le_trans (Nat.min_le_right 11 op.priority.level) ?_
      have hle : op.priority.level ≤ 11 := by cases op <;> decide
      dsimp only
      split_ifs with hstrings hnot
      · cases d with
        | standard => exact (hop _ _).ge
        | openCL => exact hle
      · cases d with
        | standard => exact (hop _ _).ge
        | openCL => exact hle.trans (by simp [Tree.level])
      · exact (hop _ _).ge

/-- The tree of a printed expression belongs to the level that the priority stands for or to a
tighter one, up to a sign. -/
theorem level_tree (hc : cx.code e = .ok code) :
    min 11 (cx.target.priority e).level ≤ (cx.tree e).level := by
  have hsmall : ∀ {n : Nat} {p : Priority}, 11 ≤ n → min 11 p.level ≤ n := fun h =>
    (Nat.min_le_left _ _).trans h
  cases e with
  | literal value ty =>
      cases value with
      | int n => exact hsmall (by simpa [tree, literalTree] using level_integerTree n.toInt)
      | float x => exact hsmall (by simpa [tree, literalTree] using level_floatTree x)
      | bool | str => exact hsmall (by simp [tree, literalTree, truthTree, Tree.level])
      | null =>
          refine hsmall ?_
          rw [tree, literalTree, nullTree]
          cases cx.target <;> simp [Tree.level]
  | var name ty => exact hsmall (by simp [tree, Tree.level])
  | this ty =>
      refine hsmall ?_
      rw [tree, thisTree]
      cases cx.target <;> simp [Tree.level]
  | const owner name ty => exact hsmall (by simpa [tree] using level_constTree owner name)
  | enumValue id index ty => exact hsmall (by simpa [tree] using level_enumTree id index)
  | field obj name ty => exact hsmall (by simp [tree, fieldTree, Tree.level])
  | property obj accessor ty =>
      simp only [tree, propertyTree]
      cases cx.target with
      | actionScript =>
          cases accessor with
          | signExtendByte => exact (Nat.min_le_right _ _).trans (Nat.le_refl 9)
          | lowByte => exact (Nat.min_le_right _ _).trans (Nat.le_refl 5)
          | stringLength => exact hsmall (by simp [ActionScript.propertyTree, Tree.level])
      | cFamily d =>
          cases accessor <;> cases d <;> exact hsmall (by simp [CFamily.propertyTree, Tree.level])
  | call receiver callee args ty =>
      refine hsmall ?_
      cases callee with
      | user owner name isStatic => simpa [tree] using level_userCallTree ..
      | builtin m =>
          simp only [tree]
          split
          · exact level_asBuiltinTree ..
          · exact level_printTree ..
          · exact level_printTree ..
          · exact level_builtinTree ..
  | index array position ty => exact hsmall (by simp [tree, Tree.level])
  | unary op operand ty =>
      refine hsmall ?_
      simp only [tree, unaryTree]
      split_ifs <;> simp [Tree.level]
  | binary left op right ty => exact level_binaryTree left op right ty
  | select cond onTrue onFalse ty =>
      cases cx.target <;> exact Nat.le_trans (Nat.min_le_right _ _) (Nat.zero_le _)
  | interpolated parts suffix ty =>
      rw [tree]
      cases ht : cx.target with
      | actionScript => exact (Nat.min_le_right _ _).trans (level_interpolatedTree _ _)
      | cFamily d => simp [Context.code, ht, unsupported] at hc
  | resource name ty => exact hsmall (by simp [tree, Tree.level])

namespace ReadsAlone

/-- An operand between parentheses. -/
theorem parenthesized (h : cx.ReadsAlone e) (hc : (cx.operand e).parenthesized = .ok code)
    (hprimary : cx.target.priority e ≠ .primary) :
    ∃ inner : Code, inner.ReadsAt cx.target 0 (cx.tree e) ∧ ¬(cx.tree e).isType cx.target ∧
      code = inner.parenthesized := by
  obtain ⟨inner, hinner, rfl⟩ := Result.map_eq_ok.mp hc
  exact ⟨inner, (h inner hinner).readsAt.mono (Nat.zero_le _),
    Tree.not_isType (isName_tree hprimary), rfl⟩

/-- An operand that binds less tightly than its place asks for. -/
theorem group (h : cx.ReadsAlone e) {least : Priority} (hprio : cx.target.priority e < least)
    (hc : (cx.operand e).atLeast least = .ok code) :
    ∃ inner : Code, inner.ReadsAt cx.target 0 (cx.tree e) ∧ ¬(cx.tree e).isType cx.target ∧
      code = inner.parenthesized := by
  rw [Operand.atLeast, if_pos (show (cx.operand e).priority < least from hprio)] at hc
  exact h.parenthesized hc (Printed.ne_primary hprio)

theorem readsAt (h : cx.ReadsAlone e) (hc : cx.code e = .ok code) :
    code.ReadsAt cx.target (min 11 (cx.target.priority e).level) (cx.tree e) :=
  (h code hc).readsAt.mono (level_tree hc)

/-- An operand in a place that asks for less than a postfix operator does. -/
theorem atLeast (h : cx.ReadsAlone e) (least : Priority) (hleast : least.level ≤ 11)
    (hc : (cx.operand e).atLeast least = .ok code) :
    code.ReadsAt cx.target least.level (cx.tree e) := by
  by_cases hprio : cx.target.priority e < least
  · obtain ⟨inner, hinner, htype, rfl⟩ := h.group hprio hc
    exact (hinner.parenthesized htype).mono (hleast.trans (by decide))
  · rw [Operand.atLeast, if_neg (show ¬(cx.operand e).priority < least from hprio)] at hc
    exact (h.readsAt hc).mono (Nat.le_min.mpr ⟨hleast, Priority.level_mono hprio⟩)

/-- An operand beside an operator that does not associate on this side. -/
theorem above (h : cx.ReadsAlone e) {bound : Priority} (hbound : bound ≤ .mul)
    (hselect : .select ≤ bound) (hc : (cx.operand e).above bound = .ok code) :
    code.ReadsAt cx.target (bound.level + 1) (cx.tree e) := by
  have hlevel : bound.level + 1 ≤ 11 := by
    revert hbound
    cases bound <;> decide
  by_cases hprio : cx.target.priority e ≤ bound
  · rw [Operand.above, if_pos (show (cx.operand e).priority ≤ bound from hprio)] at hc
    have hprimary : cx.target.priority e ≠ .primary := by
      intro hprimary
      rw [hprimary] at hprio
      revert hprio hbound
      cases bound <;> decide
    obtain ⟨inner, hinner, htype, rfl⟩ := h.parenthesized hc hprimary
    exact (hinner.parenthesized htype).mono (hlevel.trans (by decide))
  · rw [Operand.above, if_neg (show ¬(cx.operand e).priority ≤ bound from hprio)] at hc
    exact (h.readsAt hc).mono
      (Nat.le_min.mpr ⟨hlevel, Priority.level_lt hprio hbound hselect⟩)

variable {left right cond onTrue onFalse : Expr}

theorem infixed (hl : cx.ReadsAlone left) (hr : cx.ReadsAlone right) (op : BinaryOp)
    (hc : (cx.operand left).infixed op (cx.operand right) = .ok code) :
    code.ReadsAt cx.target op.priority.level (.binary op.text (cx.tree left) (cx.tree right)) := by
  have hop : op.priority ≤ .mul ∧ .select ≤ op.priority ∧ op.priority.level ≤ 11 := by
    cases op <;> decide
  obtain ⟨lcode, hlcode, hc⟩ := Result.bind_eq_ok.mp hc
  obtain ⟨rcode, hrcode, hc⟩ := Result.bind_eq_ok.mp hc
  obtain rfl := Except.ok.inj hc
  exact .binary op.text (binaryLevel?_text op) (hl.atLeast _ hop.2.2 hlcode)
    (hr.above hop.1 hop.2.1 hrcode)

theorem selected (hcond : cx.ReadsAlone cond) (htrue : cx.ReadsAlone onTrue)
    (hfalse : cx.ReadsAlone onFalse) (ty : Ty) :
    cx.ReadsAlone (.select cond onTrue onFalse ty) := by
  intro code hc
  rw [Context.code] at hc
  obtain ⟨ccode, hccode, hc⟩ := Result.bind_eq_ok.mp hc
  obtain ⟨tcode, htcode, hc⟩ := Result.bind_eq_ok.mp hc
  obtain ⟨fcode, hfcode, hc⟩ := Result.bind_eq_ok.mp hc
  obtain rfl := Except.ok.inj hc
  rw [tree]
  exact (Code.ReadsAt.select (hcond.atLeast .condOr (by decide) hccode)
    (htrue.atLeast .select (by decide) htcode) (hfalse.atLeast .select (by decide) hfcode)).readsAs

/-- A unary operation on an operand that needs parentheses. -/
theorem unary (h : cx.ReadsAlone e) (hprio : cx.target.priority e < .prefixed) (op : UnaryOp)
    (ty : Ty) : cx.ReadsAlone (.unary op e ty) := by
  intro code hc
  rw [Context.code, Context.unary] at hc
  rw [tree, unaryTree]
  split_ifs at hc ⊢ with hpostfix
  · obtain ⟨operand, hoperand, hc⟩ := Result.bind_eq_ok.mp hc
    obtain rfl := Except.ok.inj hc
    have hprio' : cx.target.priority e < .postfixed := Nat.lt_trans hprio (by decide)
    obtain ⟨inner, hinner, htype, rfl⟩ := h.group hprio' hoperand
    refine (hinner.postfixed htype ?_).readsAs
    revert hpostfix
    cases op <;> decide
  · have hprimary := Printed.ne_primary hprio
    obtain ⟨operand, hoperand, rfl⟩ := Operand.prefixed_eq_ok hc
    have hgroup : (cx.operand e).parenthesized = .ok operand := by
      split_ifs at hoperand
      · exact hoperand
      · rwa [Operand.atLeast, if_pos hprio] at hoperand
    obtain ⟨inner, hinner, htype, rfl⟩ := h.parenthesized hgroup hprimary
    have htext : op.text ∈ ["-", "!", "~", "++", "--"] := by
      revert hpostfix
      cases op <;> decide
    have hall : ∀ s ∈ ["-", "!", "~", "++", "--"], s.toList ∈ operators := by decide
    exact (hinner.prefixed htype (symbol_mem_prefixOperators _ htext) (hall _ htext)).readsAs

/-- An element of what needs parentheses. -/
theorem index (h : cx.ReadsAlone left) (hprio : cx.target.priority left < .postfixed)
    (hposition : cx.ReadsAlone right) (ty : Ty) : cx.ReadsAlone (.index left right ty) := by
  intro code hc
  rw [Context.code] at hc
  obtain ⟨array, harray, hc⟩ := Result.bind_eq_ok.mp hc
  obtain ⟨position, hcode, hc⟩ := Result.bind_eq_ok.mp hc
  obtain rfl := Except.ok.inj hc
  obtain ⟨inner, hinner, htype, rfl⟩ := h.group hprio harray
  rw [tree]
  simpa using
    (hinner.element htype ((hposition position hcode).readsAt.mono (Nat.zero_le _))).readsAs

/-- A cast of an operand to an integer type. -/
theorem cast {d : Dialect} (h : cx.ReadsAlone e) (ht : cx.target = .cFamily d) (kind : IntKind)
    (hc : CFamily.cast [d.intType kind] (cx.operand e) = .ok code) :
    code.ReadsAt cx.target 11 (.cast [(d.intType kind).text] (cx.tree e)) := by
  obtain ⟨operand, hoperand, hc⟩ := Result.bind_eq_ok.mp hc
  obtain rfl := Except.ok.inj hc
  have hword : isWord (d.intType kind).text = true := by cases d <;> cases kind <;> decide
  have htype : (d.intType kind).text ∈ typeWords cx.target := by
    rw [ht]
    cases d <;> cases kind <;> decide
  have hscans : Scans (Code.text [d.intType kind]).toList [.word (d.intType kind).text] := by
    simpa [toList_text, Lexeme.token?, Lexeme.text] using
      Lexeme.scans (l := .word (d.intType kind).text) hword
  have hwords : ∀ w ∈ [(d.intType kind).text], w ∈ typeWords cx.target := by simpa using htype
  exact (h.atLeast .prefixed (by decide) hoperand).cast hscans (by simp) hwords

/-- The low byte, with a sign or without one. -/
theorem byteProperty (h : cx.ReadsAlone e) {accessor : BuiltinProperty}
    (hbyte : accessor ≠ .stringLength) (ty : Ty) : cx.ReadsAlone (.property e accessor ty) := by
  intro code hc
  have hc : cx.property accessor (cx.operand e) = .ok code := hc
  have htree : cx.tree (.property e accessor ty) = cx.propertyTree accessor (cx.tree e) := by
    rw [tree]
  rw [htree]
  unfold Context.property at hc
  unfold propertyTree
  cases ht : cx.target with
  | actionScript =>
      simp only [ht] at hc ⊢
      rw [← ht]
      cases accessor with
      | stringLength => exact absurd rfl hbyte
      | signExtendByte =>
          have hsign : ReadsAt cx.target 13 [.number "128"] (.number "128") :=
            .number (by decide) (by decide)
          obtain ⟨operand, hoperand, hc⟩ := Result.bind_eq_ok.mp hc
          obtain rfl := Except.ok.inj hc
          have hflipped := ReadsAt.binary "^" rfl (h.atLeast .xor (by decide) hoperand)
            (hsign.mono (by decide))
          have hshifted := ReadsAt.binary "-" rfl
            (((hflipped.mono (Nat.zero_le _)).parenthesized (Tree.not_isType rfl)).mono (by decide))
            (hsign.mono (by decide))
          simpa [Code.parenthesized, ActionScript.propertyTree] using hshifted.readsAs
      | lowByte =>
          have hmask : ReadsAt cx.target 13 [.number "0xff"] (.number "0xff") :=
            .number (by decide) (by decide)
          obtain ⟨operand, hoperand, hc⟩ := Result.bind_eq_ok.mp hc
          obtain rfl := Except.ok.inj hc
          exact (ReadsAt.binary "&" rfl (h.atLeast .and (by decide) hoperand)
            (hmask.mono (by decide))).readsAs
  | cFamily d =>
      simp only [ht] at hc ⊢
      rw [← ht]
      cases accessor with
      | stringLength => exact absurd rfl hbyte
      | signExtendByte => exact (h.cast ht .sbyte hc).readsAs
      | lowByte => exact (h.cast ht .byte hc).readsAs

end ReadsAlone

end Context

namespace ActionScript

open Context

variable {cx : Context} {e left right : Expr}

theorem readsAlone_binary (ht : cx.target = .actionScript) (hl : cx.ReadsAlone left)
    (hr : cx.ReadsAlone right) (op : BinaryOp) (ty : Ty) :
    cx.ReadsAlone (.binary left op right ty) := by
  intro code hc
  have hc : cx.binary op ty (cx.operand left) (cx.operand right) = .ok code := hc
  have htree : cx.tree (.binary left op right ty) =
      if op = .div ∧ ty.isInteger then
        .call (.name "int") [.binary "/" (cx.tree left) (cx.tree right)]
      else .binary op.text (cx.tree left) (cx.tree right) := by
    rw [tree, binaryTree, ht]
  unfold Context.binary at hc
  simp only [ht] at hc
  unfold binary at hc
  split_ifs at hc htree with hquotient
  · obtain ⟨inner, hinner, hc⟩ := Result.bind_eq_ok.mp hc
    obtain rfl := Except.ok.inj hc
    have hname : .word "int" ∉ prefixOperators cx.target := by
      rw [ht]
      decide
    have hdivided := ((hl.infixed hr .div hinner).mono (Nat.zero_le _)).call (by decide) hname
    rw [htree]
    simpa [Code.parenthesized, BinaryOp.text] using hdivided.readsAs
  · exact htree ▸ (hl.infixed hr op hc).readsAs

/-- The length of what needs parentheses. -/
theorem readsAlone_length (ht : cx.target = .actionScript) (h : cx.ReadsAlone e)
    (hprio : cx.target.priority e < .postfixed) (ty : Ty) :
    cx.ReadsAlone (.property e .stringLength ty) := by
  intro code hc
  have hc : cx.property .stringLength (cx.operand e) = .ok code := hc
  have htree : cx.tree (.property e .stringLength ty) = .member (cx.tree e) "." "length" := by
    rw [tree, Context.propertyTree, ht]
    rfl
  unfold Context.property at hc
  simp only [ht] at hc
  obtain ⟨obj, hobj, hc⟩ := Result.bind_eq_ok.mp hc
  obtain rfl := Except.ok.inj hc
  obtain ⟨inner, hinner, htype, rfl⟩ := h.group hprio hobj
  exact htree ▸ (hinner.member htype (by decide)).readsAs

end ActionScript

end Emitter
