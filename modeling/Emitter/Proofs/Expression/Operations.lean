import Emitter.Proofs.Expression.Constants

/-!
# Operations read as their templates

Fields, elements, operators, calls and built-ins put the printed forms of their operands together,
and the result reads as the template with the operands' trees in it.
-/

namespace Emitter

open Layout Program Reading Text

namespace Context

variable (cx : Context)

theorem operands_eq (es : List Expr) : cx.operands es = es.map cx.operand := by
  induction es with
  | nil => rfl
  | cons e rest ih => simp [operands, ih, operand]

theorem terms_eq (es : List Expr) : cx.terms es = es.map cx.term := by
  induction es with
  | nil => rfl
  | cons e rest ih => simp [terms, ih, term]

theorem receiverOperand_eq (receiver : Option Expr) :
    cx.receiverOperand receiver = receiver.map cx.operand := by
  cases receiver <;> rfl

theorem receiverTerm_eq (receiver : Option Expr) :
    cx.receiverTerm receiver = receiver.map cx.term := by
  cases receiver <;> rfl

theorem holes_eq (parts : List Part) :
    cx.holes parts = parts.map fun part => (part.hole, cx.operand part.arg) := by
  induction parts with
  | nil => rfl
  | cons part rest ih =>
      cases part
      simp [holes, ih, operand, Part.hole, Part.arg]

theorem holeTerms_eq (parts : List Part) :
    cx.holeTerms parts = parts.map fun part => (part.hole, cx.term part.arg) := by
  induction parts with
  | nil => rfl
  | cons part rest ih =>
      cases part
      simp [holeTerms, ih, term, Part.hole, Part.arg]

end Context

variable {cx : Context} {strict : Bool} {code : Code}

/-- Operands that are printed in positions of their own, each as a piece of its own. -/
theorem pieces_mapM {α : Type} {place : α → Result Code} {tree : α → Tree} {items : List α}
    {codes : List Code}
    (h : ∀ item ∈ items, ∀ code, place item = .ok code →
      Piece cx.target strict 0 code (tree item))
    (hc : items.mapM place = .ok codes) :
    ∃ pieces : List (Code × Tree), pieces.map Prod.fst = codes ∧
      pieces.map Prod.snd = items.map tree ∧ ∀ p ∈ pieces, Piece cx.target strict 0 p.1 p.2 := by
  have hall := Result.forall₂_of_mapM_eq_ok hc
  clear hc
  induction hall with
  | nil => exact ⟨[], rfl, rfl, by simp⟩
  | @cons item first rest others hfirst _ ih =>
      obtain ⟨hitem, hrest⟩ := List.forall_mem_cons.mp h
      obtain ⟨pieces, rfl, hsnd, hpieces⟩ := ih hrest
      exact ⟨(first, tree item) :: pieces, rfl, by simp [hsnd],
        List.forall_mem_cons.mpr ⟨hitem first hfirst, hpieces⟩⟩

/-- Operands as arguments. -/
theorem Printed.argument {e : Expr} (h : Printed cx strict e)
    (hc : (cx.operand e).atLeast .argument = .ok code) :
    Piece cx.target strict 0 code (cx.tree e) :=
  h.operand .argument (by decide) hc

theorem pieces_arguments {es : List Expr} {codes : List Code} (h : ∀ e ∈ es, Printed cx strict e)
    (hc : (es.map cx.operand).mapM (Operand.atLeast .argument) = .ok codes) :
    ∃ pieces : List (Code × Tree), pieces.map Prod.fst = codes ∧
      pieces.map Prod.snd = es.map cx.tree ∧ ∀ p ∈ pieces, Piece cx.target strict 0 p.1 p.2 := by
  rw [List.mapM_map] at hc
  exact pieces_mapM (fun e he code hcode => (h e he).argument hcode) hc

/-- Arguments between parentheses make a call of the code in front of them. -/
theorem Solid.call {f : Tree} {pieces : List (Code × Tree)} (hf : Solid cx strict 12 code f)
    (h : ∀ p ∈ pieces, Piece cx.target strict 0 p.1 p.2) :
    Solid cx strict 12 (code ++ Code.parenthesized (Code.commaSeparated (pieces.map Prod.fst)))
      (.call f (pieces.map Prod.snd)) where
  piece := hf.piece.call h
  head := by
    rw [List.head?_append_of_ne_nil _ hf.piece.ne_nil]
    exact hf.head
  last _ text := by
    rw [List.getLast?_append, getLast?_parenthesized]
    simp

theorem Solid.arguments {f : Tree} {es : List Expr} {args : Code} (hf : Solid cx strict 12 code f)
    (h : ∀ e ∈ es, Printed cx strict e) (hc : Operand.arguments (es.map cx.operand) = .ok args) :
    Solid cx strict 12 (code ++ args) (.call f (es.map cx.tree)) := by
  obtain ⟨codes, hcodes, hc⟩ := Result.bind_eq_ok.mp hc
  obtain rfl := Except.ok.inj hc
  obtain ⟨pieces, rfl, hsnd, hpieces⟩ := pieces_arguments h hcodes
  exact hsnd ▸ hf.call hpieces

/-- A single argument between parentheses. -/
theorem Solid.call_one {f arg : Tree} {inner : Code} (hf : Solid cx strict 12 code f)
    (h : Piece cx.target strict 0 inner arg) :
    Solid cx strict 12 (code ++ inner.parenthesized) (.call f [arg]) := by
  have hpieces : ∀ p ∈ [(inner, arg)], Piece cx.target strict 0 p.1 p.2 := by simpa using h
  simpa [Code.commaSeparated] using hf.call hpieces

/-- A word of the printer's own, or one that a header or a helper supplies. -/
theorem Solid.ofWord {w : String} {l : Lexeme} (hl : l.Names w)
    (hw : isWord w = true ∧ w ∉ controlWords (.cFamily .standard)) :
    Solid cx strict 12 [l] (.name w) :=
  .name hl hw.1 (not_mem_controlWords_of_cFamily hw.2 cx.target)

namespace Base

variable {e : Expr}

theorem head_append (h : Base cx strict e code) (rest : Code) :
    strict = true →
      ∀ x ∈ (code ++ rest).head?, x ≠ .symbol "-" ∧ x ≠ .symbol "--" ∧ x ≠ .symbol "&" := by
  rw [List.head?_append_of_ne_nil _ h.piece.ne_nil]
  exact h.head

theorem member {w selector : String} {l : Lexeme} (h : Base cx strict e code)
    (hs : selector = "." ∨ selector = "->") (hl : l.Names w) (hw : isWord w = true)
    (hnumber : strict = true → selector = "." → cx.isBareNumber e = false) :
    Solid cx strict 12 (code ++ [.symbol selector, l]) (.member (cx.tree e) selector w) where
  piece := h.piece.member hs hl hw fun hstrict hpoint text htext => by
    have := h.number hstrict text htext
    simp [hnumber hstrict hpoint] at this
  head := h.head_append _
  last _ text := by
    rw [List.getLast?_append]
    rcases hl with rfl | ⟨supplier, rfl⟩ <;> simp

theorem element {position : Code} {tree : Tree} (h : Base cx strict e code)
    (hp : Piece cx.target strict 0 position tree) :
    Solid cx strict 12 (code ++ Lexeme.symbol "[" :: (position ++ [Lexeme.symbol "]"]))
      (.element (cx.tree e) tree) where
  piece := h.piece.element hp
  head := h.head_append _
  last _ text := by
    rw [List.getLast?_append, getLast?_bracketed]
    simp

end Base

theorem isWord_localWord (cx : Context) {name : String} (h : isWord name = true) :
    isWord (cx.target.localName name) = true ∧
      cx.target.localName name ∉ controlWords cx.target :=
  ⟨(Target.isWord_localName h).1, not_mem_controlWords (Target.isWord_localName h).2⟩

theorem isBareNumber_of_isMinusZero {e : Expr} (h : cx.isMinusZero e = true) :
    cx.isBareNumber e = true := by
  unfold Context.isMinusZero at h
  unfold Context.isBareNumber
  split at h
  case h_1 x hnumber =>
    obtain ⟨-, hzero⟩ : x.isNegative = true ∧ x.isZero = true := by simpa using h
    have hfield : x.exponentField = 0 ∧ x.fractionField = 0 := by
      simpa [Number.Binary64.isZero] using hzero
    simp [hnumber, Number.Binary64.isBelowZero, hzero, Number.Binary64.isFinite, hfield]
  · simp at h

theorem isMinusZero_of_isBareNumber {e : Expr} (h : cx.isBareNumber e = false) :
    cx.isMinusZero e = false := by
  by_contra hzero
  simp [isBareNumber_of_isMinusZero (Bool.not_eq_false _ ▸ hzero)] at h

theorem printed_field {obj : Expr} {name : String} (ty : Ty) (h : Printed cx strict obj)
    (hname : isWord name = true)
    (hallows : strict = true → cx.allowsSelector (cx.selector obj.ty) obj = true) :
    Printed cx strict (.field obj name ty) := by
  intro code hc
  have hselector : cx.selector obj.ty = "." ∨ cx.selector obj.ty = "->" := by
    unfold Context.selector
    split <;> simp
  obtain ⟨base, hbase, rfl⟩ : ∃ base, (cx.operand obj).atLeast .postfixed = .ok base ∧
      code = base ++ [.symbol (cx.selector obj.ty), cx.localWord name] := by
    rw [Context.code, Context.field] at hc
    split at hc
    · obtain ⟨base, hbase, hc⟩ := Result.bind_eq_ok.mp hc
      obtain rfl := Except.ok.inj hc
      exact ⟨base, hbase, by simp [Context.selector, *]⟩
    · obtain ⟨base, hbase, hc⟩ := Result.bind_eq_ok.mp hc
      obtain rfl := Except.ok.inj hc
      refine ⟨base, hbase, ?_⟩
      simp only [Context.selector, *]
      cases obj.ty <;> rfl
  have hnumber : strict = true → cx.selector obj.ty = "." → cx.isBareNumber obj = false := by
    intro hs hpoint
    simpa [Context.allowsSelector, hpoint] using hallows hs
  have hzero : strict = true → cx.isMinusZero obj = false := by
    intro hs
    have hallow := hallows hs
    unfold Context.allowsSelector at hallow
    split_ifs at hallow
    · exact isMinusZero_of_isBareNumber (by simpa using hallow)
    · simpa using hallow
  exact ((h.base hzero hbase).member hselector (.inl rfl)
    (isWord_localWord cx hname).1 hnumber).reads
    (Nat.le_refl 12) rfl

theorem printed_index {array position : Expr} (ty : Ty) (ha : Printed cx strict array)
    (hp : Printed cx strict position) (hzero : strict = true → cx.isMinusZero array = false) :
    Printed cx strict (.index array position ty) := by
  intro code hc
  rw [Context.code] at hc
  obtain ⟨base, hbase, hc⟩ := Result.bind_eq_ok.mp hc
  obtain ⟨inner, hinner, hc⟩ := Result.bind_eq_ok.mp hc
  obtain rfl := Except.ok.inj hc
  have hposition := (hp inner hinner).piece.mono (Nat.zero_le _)
  simpa using ((ha.base hzero hbase).element hposition).reads (Nat.le_refl 12) rfl

theorem priority_unary (op : UnaryOp) (operand : Expr) (ty : Ty) :
    cx.target.priority (.unary op operand ty) =
      if op.isPostfix then .postfixed else .prefixed := by
  cases cx.target <;> rfl

theorem Operand.prefixed_eq_ok {op : UnaryOp} {o : Operand} (hc : o.prefixed op = .ok code) :
    ∃ inner, (if o.startsWithSign then o.parenthesized else o.atLeast .prefixed) = .ok inner ∧
      code = .symbol op.text :: inner := by
  unfold Operand.prefixed at hc
  split_ifs at hc ⊢ <;>
    obtain ⟨inner, hinner, hc⟩ := Result.bind_eq_ok.mp hc <;>
    exact ⟨inner, hinner, (Except.ok.inj hc).symm⟩

theorem printed_unary {op : UnaryOp} {operand : Expr} (ty : Ty) (h : Printed cx strict operand)
    (hlegible : strict = true → cx.isLegible (.unary op operand ty) = true) :
    Printed cx strict (.unary op operand ty) := by
  intro code hc
  have htree : cx.tree (.unary op operand ty) = Context.unaryTree op (cx.tree operand) := rfl
  rw [Context.code] at hc
  change Context.unary op (cx.operand operand) = _ at hc
  unfold Context.unary at hc
  rw [Context.unaryTree] at htree
  simp only [Context.isLegible] at hlegible
  split_ifs at hc htree hlegible with hpostfix
  · obtain ⟨base, hbase, hc⟩ := Result.bind_eq_ok.mp hc
    obtain rfl := Except.ok.inj hc
    have hbase := h.base (fun hs => by simpa using hlegible hs) hbase
    have hop : op.text = "++" ∨ op.text = "--" := by
      cases op <;> simp_all [UnaryOp.isPostfix, UnaryOp.text]
    refine .of_piece (htree ▸ hbase.piece.postfixed hop) (Nat.le_refl 12) (hbase.head_append _) ?_
    intro _ text
    rw [List.getLast?_append]
    simp
  · obtain ⟨inner, hinner, rfl⟩ := Operand.prefixed_eq_ok hc
    have hprio : cx.target.priority (.unary op operand ty) = .prefixed := by
      simp [priority_unary, hpostfix]
    have htext : op.text ∈ ["-", "!", "~", "++", "--"] := by
      cases op <;> simp_all [UnaryOp.isPostfix, UnaryOp.text]
    have hpiece : Piece cx.target strict 11 inner (cx.tree operand) := by
      change (if _ then _ else _) = _ at hinner
      split_ifs at hinner with hsign
      · refine (h.parenthesized hinner ?_).mono (by decide)
        simp [Printed.priority_of_startsWithSign hsign]
      · exact h.operand .prefixed (by decide) hinner
    have hhead : strict = true → op.text = "-" →
        ∀ x ∈ inner.head?, x ≠ .symbol "-" ∧ x ≠ .symbol "--" := by
      intro hs hminus x hx
      have hopened : ∀ {inner' : Code}, inner = inner'.parenthesized →
          x ≠ .symbol "-" ∧ x ≠ .symbol "--" := by
        rintro inner' rfl
        obtain rfl := Option.some.inj hx
        decide
      change (if _ then _ else _) = _ at hinner
      split_ifs at hinner with hsign
      · obtain ⟨inner', -, hcode⟩ := Result.map_eq_ok.mp hinner
        exact hopened hcode.symm
      · unfold Operand.atLeast at hinner
        split_ifs at hinner with hlow
        · obtain ⟨inner', -, hcode⟩ := Result.map_eq_ok.mp hinner
          exact hopened hcode.symm
        · have hop : op = .neg := by cases op <;> simp_all [UnaryOp.text]
          have hhides : cx.hidesSign operand = false := by simpa [hop] using hlegible hs
          have := mt ((h inner hinner).sign hs (Nat.le_of_not_lt hlow) x hx)
              (by simp [hsign, hhides])
          simpa only [not_or] using this
    refine ⟨?_, ?_, ?_, ?_⟩
    · have hgrade : cx.grade (.unary op operand ty) = 11 := by
        simp [Context.grade, Context.isMinusZero, Context.number?, hprio, Priority.level]
      rw [hgrade, htree]
      have hall :
          ∀ s ∈ ["-", "!", "~", "++", "--"], s ∈ ["-", "!", "~", "++", "--", "&"] ∧ s ≠ "&" := by
        decide
      exact hpiece.prefixed (symbol_mem_prefixOperators _ htext) (hall _ htext).1 hhead
        fun _ hand => absurd hand (hall _ htext).2
    · intro _ hle
      rw [hprio] at hle
      exact absurd hle (by decide)
    · rintro _ _ x hx hsign
      obtain rfl : .symbol op.text = x := Option.some.inj hx
      left
      clear hc hinner
      cases op <;>
        simp_all [UnaryOp.text, UnaryOp.isPostfix, Context.operand, Operand.startsWithSign]
    · rintro _ _ x hx rfl
      have hop : op.text = "&" := by simpa using hx
      cases op <;> simp [UnaryOp.text] at hop

/-- The two operands of an operator that associates to the left. -/
theorem piece_infixed {op : BinaryOp} {left right : Expr} (hl : Printed cx strict left)
    (hr : Printed cx strict right)
    (hc : (cx.operand left).infixed op (cx.operand right) = .ok code) :
    Piece cx.target strict op.priority.level code
      (.binary op.text (cx.tree left) (cx.tree right)) := by
  obtain ⟨first, hfirst, hc⟩ := Result.bind_eq_ok.mp hc
  obtain ⟨second, hsecond, hc⟩ := Result.bind_eq_ok.mp hc
  obtain rfl := Except.ok.inj hc
  have hlevel : op.priority.level ≤ 10 ∧ op.priority ≤ .mul ∧ .select ≤ op.priority := by
    cases op <;> decide
  exact .binary _ (binaryLevel?_text op)
    (hl.operand _ (by omega) hfirst)
    (hr.above hlevel.2.1 hlevel.2.2 hsecond)

theorem not_prefixed_le_priority (op : BinaryOp) : ¬.prefixed ≤ op.priority := by
  cases op <;> decide

/-- Equality of strings in the C family. -/
theorem piece_stringEquality {d : Dialect} {op : BinaryOp} {left right : Expr} {ty : Ty}
    (ht : cx.target = .cFamily d) (hop : op = .eq ∨ op = .notEq) (hl : Printed cx strict left)
    (hr : Printed cx strict right)
    (hcompares : CFamily.comparesStrings left.ty right.ty = true)
    (hc : CFamily.stringEquality d (op = .notEq) (cx.operand left) (cx.operand right) = .ok code) :
    Piece cx.target strict 6 code (cx.binaryTree op ty (cx.term left) (cx.term right)) := by
  obtain ⟨first, hfirst, hc⟩ := Result.bind_eq_ok.mp hc
  obtain ⟨second, hsecond, hc⟩ := Result.bind_eq_ok.mp hc
  have hargs : ∀ p ∈ [(first, cx.tree left), (second, cx.tree right)],
      Piece cx.target strict 0 p.1 p.2 := by
    simp only [List.forall_mem_cons, List.not_mem_nil, false_imp_iff, implies_true, and_true]
    exact ⟨(hl first hfirst).piece.mono (Nat.zero_le _),
      (hr second hsecond).piece.mono (Nat.zero_le _)⟩
  have hcall : ∀ (w : String) (supplier : Supplier),
      isWord w = true ∧ w ∉ controlWords (.cFamily .standard) →
      Piece cx.target strict 12
        (.supplied w supplier :: Code.parenthesized (Code.commaSeparated [first, second]))
        (.call (.name w) [cx.tree left, cx.tree right]) := fun w supplier hw => by
    have hname : Solid cx strict 12 [.supplied w supplier] (.name w) := .ofWord (.inr ⟨_, rfl⟩) hw
    simpa using (hname.call hargs).piece
  cases d with
  | standard =>
      obtain rfl := Except.ok.inj hc
      have hzero : Piece cx.target strict 7 [.number "0"] (.number "0") :=
        (Piece.number (by decide) (by decide)).mono (by decide)
      have hname := hcall "strcmp" (.header .string) (by decide)
      rcases hop with rfl | rfl
      · simpa [Context.binaryTree, Context.term, ht, hcompares, BinaryOp.text] using
          Piece.binary "==" rfl (hname.mono (by decide)) hzero
      · simpa [Context.binaryTree, Context.term, ht, hcompares, BinaryOp.text] using
          Piece.binary "!=" rfl (hname.mono (by decide)) hzero
  | openCL =>
      obtain rfl := Except.ok.inj hc
      have hname := hcall "streq" (.helper .stringEquality) (by decide)
      rcases hop with rfl | rfl
      · simpa [Context.binaryTree, Context.term, ht, hcompares] using hname.mono (by decide)
      · have hnot : Piece cx.target strict 11 _ _ :=
          (hname.mono (by decide)).prefixed (symbol_mem_prefixOperators _ (s := "!") (by decide))
            (by decide) (fun _ hs => by simp at hs) (fun _ hs => by simp at hs)
        simpa [Context.binaryTree, Context.term, ht, hcompares] using hnot.mono (by decide)

theorem printed_binary {op : BinaryOp} {left right : Expr} (ty : Ty) (hl : Printed cx strict left)
    (hr : Printed cx strict right) : Printed cx strict (.binary left op right ty) := by
  intro code hc
  rw [Context.code] at hc
  change cx.binary op ty (cx.operand left) (cx.operand right) = _ at hc
  unfold Context.binary at hc
  have htree : cx.tree (.binary left op right ty) =
      cx.binaryTree op ty (cx.term left) (cx.term right) := rfl
  cases ht : cx.target with
  | actionScript =>
      simp only [ht] at hc
      unfold ActionScript.binary at hc
      split_ifs at hc with hdiv
      · obtain ⟨quotient, hquotient, hc⟩ := Result.bind_eq_ok.mp hc
        obtain rfl := Except.ok.inj hc
        have hpiece := piece_infixed hl hr hquotient
        have hname : Solid cx strict 12 [.word "int"] (.name "int") :=
          .ofWord (.inl rfl) (by decide)
        have hcall := hname.call_one (hpiece.mono (Nat.zero_le _))
        refine (Solid.reads ?_ (Nat.le_refl 12) htree)
        simpa [Context.binaryTree, ht, hdiv, Context.term, Code.parenthesized, BinaryOp.text]
          using hcall
      · have hprio : cx.target.priority (.binary left op right ty) = op.priority := by
          rw [ht]
          cases op <;> simp_all [Target.priority, Expr.priority, BinaryOp.priority]
        refine .of_loose ?_ (hprio ▸ not_prefixed_le_priority op) rfl
        rw [hprio, htree]
        simpa [Context.binaryTree, ht, hdiv, Context.term] using piece_infixed hl hr hc
  | cFamily d =>
      simp only [ht] at hc
      unfold CFamily.binary at hc
      have hprio : cx.target.priority (.binary left op right ty) = op.priority := by
        rw [ht]
        rfl
      refine .of_loose ?_ (hprio ▸ not_prefixed_le_priority op) rfl
      rw [hprio, htree]
      split_ifs at hc with hequal
      · have hlevel : op.priority.level = 6 := by rcases hequal.1 with rfl | rfl <;> rfl
        rw [hlevel]
        exact piece_stringEquality ht hequal.1 hl hr hequal.2 hc
      · have hplain : cx.binaryTree op ty (cx.term left) (cx.term right) =
            .binary op.text (cx.tree left) (cx.tree right) := by
          simp only [Context.binaryTree, ht]
          exact if_neg hequal
        exact hplain ▸ piece_infixed hl hr hc

theorem printed_select {cond onTrue onFalse : Expr} (ty : Ty) (hcond : Printed cx strict cond)
    (htrue : Printed cx strict onTrue) (hfalse : Printed cx strict onFalse) :
    Printed cx strict (.select cond onTrue onFalse ty) := by
  intro code hc
  rw [Context.code] at hc
  obtain ⟨first, hfirst, hc⟩ := Result.bind_eq_ok.mp hc
  obtain ⟨second, hsecond, hc⟩ := Result.bind_eq_ok.mp hc
  obtain ⟨third, hthird, hc⟩ := Result.bind_eq_ok.mp hc
  obtain rfl := Except.ok.inj hc
  have hprio : cx.target.priority (.select cond onTrue onFalse ty) = .select := by
    cases cx.target <;> rfl
  refine .of_loose ?_ (by rw [hprio]; decide) rfl
  rw [hprio]
  exact .select (hcond.operand .condOr (by decide) hfirst)
    (htrue.operand .select (by decide) hsecond)
    (hfalse.operand .select (by decide) hthird)

end Emitter
