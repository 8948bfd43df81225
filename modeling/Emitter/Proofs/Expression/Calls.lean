import Emitter.Proofs.Expression.Operations

/-!
# Names and calls of methods read as written

A method of an ActionScript instance is selected from it, and a method in the C family is a function
that takes the instance, or its address, as the first argument.
-/

namespace Emitter

open Layout Program Reading Text

variable {cx : Context} {strict : Bool} {code : Code}

theorem printed_var {name : String} (hname : isWord name = true) (ty : Ty) :
    Printed cx strict (.var name ty) := by
  intro code hc
  obtain rfl := Except.ok.inj hc
  obtain ⟨hword, hcontrol⟩ := isWord_localWord cx hname
  exact (Solid.name (.inl rfl) hword hcontrol).reads (Nat.le_refl 12) rfl

theorem printed_this (ty : Ty) : Printed cx strict (.this ty) := by
  intro code hc
  obtain rfl := Except.ok.inj hc
  unfold Context.this
  split
  · exact (Solid.ofWord (w := "this") (.inl rfl) (by decide)).reads (by decide)
      (by simp [Context.tree, Context.thisTree, *])
  · exact (Solid.ofWord (w := "self") (.inl rfl) (by decide)).reads (by decide)
      (by simp [Context.tree, Context.thisTree, *])

/-- The name of a resource's table is a word, whatever the resource is called. -/
theorem isWord_resourceName (cx : Context) (name : String) :
    isWord (CFamily.resourceName name) = true ∧
      CFamily.resourceName name ∉ controlWords cx.target := by
  constructor
  · refine isWord_append (by decide) fun c hc => ?_
    simp only [String.toList_ofList, List.mem_map] at hc
    obtain ⟨d, -, rfl⟩ := hc
    split_ifs with halpha
    · simp only [Char.isAlphanum, Bool.or_eq_true] at halpha
      simp only [isWordChar, isWordStart, Bool.or_eq_true]
      tauto
    · decide
  · exact not_mem_controlWords_of_underscore _ (by simp [CFamily.resourceName]) _

theorem printed_resource (name : String) (ty : Ty) : Printed cx strict (.resource name ty) := by
  intro code hc
  rw [Context.code, Context.resource] at hc
  split at hc
  · simp [Context.unsupported] at hc
  · unfold CFamily.resource at hc
    split_ifs at hc
    · obtain rfl := Except.ok.inj hc
      obtain ⟨hword, hcontrol⟩ := isWord_resourceName cx name
      exact (Solid.name (.inl rfl) hword hcontrol).reads (Nat.le_refl 12) rfl
    · simp [Context.unsupported] at hc

theorem ActionScript.userCall_eq_ok {receiver : Option Operand} {owner : ClassId} {name : String}
    {isStatic : Bool} {args : List Operand}
    (hc : ActionScript.userCall cx receiver owner name isStatic args = .ok code) :
    ∃ qualifier printed, Operand.arguments args = .ok printed ∧
      code = qualifier ++ cx.localWord name :: printed ∧
      match receiver with
      | some obj => ∃ base, obj.atLeast .postfixed = .ok base ∧ qualifier = base ++ [.symbol "."]
      | none =>
        if isStatic then ActionScript.classPrefix cx owner = .ok qualifier else qualifier = [] := by
  unfold ActionScript.userCall at hc
  cases receiver with
  | some obj =>
      obtain ⟨base, hbase, hc⟩ := Result.bind_eq_ok.mp hc
      obtain ⟨_, hqualifier, hc⟩ := Result.bind_eq_ok.mp hc
      obtain rfl := Except.ok.inj hqualifier
      obtain ⟨printed, hprinted, hc⟩ := Result.bind_eq_ok.mp hc
      obtain rfl := Except.ok.inj hc
      exact ⟨_, _, hprinted, rfl, base, hbase, rfl⟩
  | none =>
      split_ifs at hc ⊢
      · obtain ⟨qualifier, hqualifier, hc⟩ := Result.bind_eq_ok.mp hc
        obtain ⟨printed, hprinted, hc⟩ := Result.bind_eq_ok.mp hc
        obtain rfl := Except.ok.inj hc
        exact ⟨_, _, hprinted, rfl, hqualifier⟩
      · obtain ⟨_, hqualifier, hc⟩ := Result.bind_eq_ok.mp hc
        obtain rfl := Except.ok.inj hqualifier
        obtain ⟨printed, hprinted, hc⟩ := Result.bind_eq_ok.mp hc
        obtain rfl := Except.ok.inj hc
        exact ⟨_, _, hprinted, rfl, rfl⟩

theorem solid_actionScriptCall (hnamed : cx.program.Named cx.target)
    (ht : cx.target = .actionScript) {receiver : Option Expr} {owner : ClassId} {name : String}
    {isStatic : Bool} {args : List Expr} (hr : ∀ e ∈ receiver, Printed cx strict e)
    (ha : ∀ e ∈ args, Printed cx strict e) (hname : isWord name = true)
    (hlegible : strict = true → ∀ e ∈ receiver, cx.isBareNumber e = false)
    (hc : ActionScript.userCall cx (receiver.map cx.operand) owner name isStatic
      (args.map cx.operand) = .ok code) :
    Solid cx strict 12 code
      (cx.userCallTree (receiver.map cx.term) owner name isStatic (args.map cx.term)) := by
  obtain ⟨hword, hcontrol⟩ := isWord_localWord cx hname
  obtain ⟨qualifier, printed, hprinted, rfl, hqualifier⟩ := ActionScript.userCall_eq_ok hc
  have hcallee : ∀ {callee : Tree},
      Solid cx strict 12 (qualifier ++ [cx.localWord name]) callee →
      Solid cx strict 12 (qualifier ++ cx.localWord name :: printed)
        (.call callee ((args.map cx.term).map Term.tree)) := fun h => by
    simpa [Context.term, Function.comp_def] using h.arguments ha hprinted
  simp only [Context.userCallTree, ht]
  cases receiver with
  | some obj =>
      obtain ⟨base, hbase, rfl⟩ := hqualifier
      have hbare := fun hs => hlegible hs obj rfl
      have hbase := (hr obj rfl).base (fun hs => isMinusZero_of_isBareNumber (hbare hs)) hbase
      refine hcallee ?_
      simpa [Context.localWord, Context.term, ht] using
        hbase.member (.inl rfl) (.inl rfl) hword fun hs _ => hbare hs
  | none =>
      simp only [Option.map_none] at hqualifier ⊢
      split_ifs at hqualifier with hstatic
      · refine hcallee ?_
        by_cases hcurrent : cx.current = some owner
        · obtain rfl : [] = qualifier := by
            simpa [ActionScript.classPrefix, hcurrent] using hqualifier
          have hname : Solid cx strict 12 [cx.localWord name]
              (.name (cx.target.localName name)) := .name (.inl rfl) hword hcontrol
          cases hclass : cx.class? owner <;>
            simpa [hstatic, Context.qualifiedTree, hcurrent, ht] using hname
        · obtain ⟨c, hclass⟩ : ∃ c, cx.class? owner = some c := by
            rw [ActionScript.classPrefix, if_neg hcurrent] at hqualifier
            obtain ⟨c, hcls, -⟩ := Result.bind_eq_ok.mp hqualifier
            exact ⟨c, Context.classOf_eq_ok hcls⟩
          simpa [hstatic, hclass, Context.localWord, ht] using
            Context.solid_classPrefix hnamed hclass hqualifier hword hcontrol
      · subst hqualifier
        refine hcallee ?_
        have hname : Solid cx strict 12 [cx.localWord name] (.name (cx.target.localName name)) :=
          .name (.inl rfl) hword hcontrol
        simpa [hstatic, ht] using hname

/-- An address is taken of an operand that is no address itself. -/
theorem piece_address {d : Dialect} {e : Expr} {inner : Code} (ht : cx.target = .cFamily d)
    (h : Printed cx strict e) (hc : (cx.operand e).atLeast .prefixed = .ok inner) :
    Piece cx.target strict 11 (.symbol "&" :: inner) (.prefixed "&" (cx.tree e)) := by
  refine (h.operand .prefixed (by decide) hc).prefixed
    (by simp [ht, prefixOperators]) (by decide) (fun _ hs => by simp at hs) fun hs _ x hx => ?_
  unfold Operand.atLeast at hc
  split_ifs at hc with hprio
  · obtain ⟨inner', -, rfl⟩ := Result.map_eq_ok.mp hc
    obtain rfl := Option.some.inj hx
    decide
  · exact (h inner hc).address hs (Nat.le_of_not_lt hprio) x hx

theorem piece_instanceArgument {d : Dialect} {receiver : Option Expr} (ht : cx.target = .cFamily d)
    (h : ∀ e ∈ receiver, Printed cx strict e)
    (hc : CFamily.instanceArgument (receiver.map cx.operand) = .ok code) :
    Piece cx.target strict 0 code (Context.instanceTree (receiver.map cx.term)) := by
  cases receiver with
  | none =>
      obtain rfl := Except.ok.inj hc
      exact (Solid.ofWord (.inl rfl) (by decide)).piece.mono (by decide)
  | some e =>
      simp only [Option.map_some, CFamily.instanceArgument, Context.instanceTree] at hc ⊢
      split at hc
      case h_1 id hty =>
        obtain ⟨inner, hinner, hc⟩ := Result.bind_eq_ok.mp hc
        obtain rfl := Except.ok.inj hc
        have hty : (cx.term e).expr.ty = .classStorage id := hty
        simp only [hty]
        exact (piece_address ht (h e rfl) hinner).mono (by decide)
      case h_2 hty =>
        have hpiece := ((h e rfl) code hc).piece.mono (Nat.zero_le _)
        split
        case h_1 id hty' => exact absurd hty' (hty id)
        case h_2 => exact hpiece

theorem isWord_functionName {owner name : String} (howner : isWord owner = true)
    (hname : isWord name = true) (t : Target) :
    isWord (CFamily.functionName owner name) = true ∧
      CFamily.functionName owner name ∉ controlWords t :=
  ⟨isWord_append (isWord_append howner (by decide)) (isWordChar_of_isWord hname),
    not_mem_controlWords_of_underscore _ (by simp [CFamily.functionName]) t⟩

theorem CFamily.userCall_eq_ok {receiver : Option Operand} {owner : ClassId} {name : String}
    {isStatic : Bool} {args : List Operand}
    (hc : CFamily.userCall cx receiver owner name isStatic args = .ok code) :
    ∃ c self rest, cx.classOf owner = .ok c ∧
      (if isStatic then self = [] else
        ∃ first, CFamily.instanceArgument receiver = .ok first ∧ self = [first]) ∧
      args.mapM (Operand.atLeast .argument) = .ok rest ∧
      code = .word (CFamily.functionName c.name name) ::
        Code.parenthesized (Code.commaSeparated (self ++ rest)) := by
  obtain ⟨c, hcls, hc⟩ := Result.bind_eq_ok.mp hc
  split_ifs at hc ⊢
  · obtain ⟨_, hself, hc⟩ := Result.bind_eq_ok.mp hc
    obtain rfl := Except.ok.inj hself
    obtain ⟨rest, hrest, hc⟩ := Result.bind_eq_ok.mp hc
    exact ⟨c, _, _, hcls, rfl, hrest, (Except.ok.inj hc).symm⟩
  · obtain ⟨first, hfirst, hc⟩ := Result.bind_eq_ok.mp hc
    obtain ⟨_, hself, hc⟩ := Result.bind_eq_ok.mp hc
    obtain rfl := Except.ok.inj hself
    obtain ⟨rest, hrest, hc⟩ := Result.bind_eq_ok.mp hc
    exact ⟨c, _, _, hcls, ⟨first, hfirst, rfl⟩, hrest, (Except.ok.inj hc).symm⟩

theorem solid_cFamilyCall (hnamed : cx.program.Named cx.target) {d : Dialect}
    (ht : cx.target = .cFamily d) {receiver : Option Expr} {owner : ClassId} {name : String}
    {isStatic : Bool} {args : List Expr} (hr : ∀ e ∈ receiver, Printed cx strict e)
    (ha : ∀ e ∈ args, Printed cx strict e) (hname : isWord name = true)
    (hc : CFamily.userCall cx (receiver.map cx.operand) owner name isStatic
      (args.map cx.operand) = .ok code) :
    Solid cx strict 12 code
      (cx.userCallTree (receiver.map cx.term) owner name isStatic (args.map cx.term)) := by
  obtain ⟨c, self, rest, hcls, hself, hrest, rfl⟩ := CFamily.userCall_eq_ok hc
  have hclass := Context.classOf_eq_ok hcls
  obtain ⟨hword, -, -⟩ := hnamed.classes c (List.mem_of_getElem? hclass)
  obtain ⟨hfunction, hcontrol⟩ := isWord_functionName hword hname cx.target
  obtain ⟨pieces, rfl, hsnd, hpieces⟩ := pieces_arguments ha hrest
  have hcall : ∀ {more : List (Code × Tree)},
      (∀ p ∈ more, Piece cx.target strict 0 p.1 p.2) → more.map Prod.fst = self →
      Solid cx strict 12
        (.word (CFamily.functionName c.name name) ::
          Code.parenthesized (Code.commaSeparated (self ++ pieces.map Prod.fst)))
        (.call (.name (CFamily.functionName c.name name))
          (more.map Prod.snd ++ (args.map cx.term).map Term.tree)) := by
    rintro more hmore rfl
    have hname : Solid cx strict 12 [.word (CFamily.functionName c.name name)]
        (.name (CFamily.functionName c.name name)) := .name (.inl rfl) hfunction hcontrol
    have hall : ∀ p ∈ more ++ pieces, Piece cx.target strict 0 p.1 p.2 := by
      intro p hp
      rcases List.mem_append.mp hp with hp | hp
      · exact hmore p hp
      · exact hpieces p hp
    simpa [hsnd, Context.term, Function.comp_def] using hname.call hall
  simp only [Context.userCallTree, ht, hclass]
  split_ifs at hself ⊢ with hstatic
  · exact @hcall [] (by simp) hself.symm
  · obtain ⟨first, hfirst, hself⟩ := hself
    have hinstance := piece_instanceArgument ht hr hfirst
    exact @hcall [(first, Context.instanceTree (receiver.map cx.term))]
      (by simpa using hinstance) hself.symm

theorem printed_userCall (hnamed : cx.program.Named cx.target) {receiver : Option Expr}
    {owner : ClassId} {name : String} {isStatic : Bool} {args : List Expr} (ty : Ty)
    (hr : ∀ e ∈ receiver, Printed cx strict e) (ha : ∀ e ∈ args, Printed cx strict e)
    (hname : isWord name = true)
    (hlegible : strict = true →
      cx.isLegible (.call receiver (.user owner name isStatic) args ty) = true) :
    Printed cx strict (.call receiver (.user owner name isStatic) args ty) := by
  intro code hc
  rw [Context.code, Context.receiverOperand_eq, Context.operands_eq, Context.userCall] at hc
  have htree : cx.tree (.call receiver (.user owner name isStatic) args ty) =
      cx.userCallTree (receiver.map cx.term) owner name isStatic (args.map cx.term) := by
    rw [Context.tree, Context.receiverTerm_eq, Context.terms_eq]
  split at hc
  case h_1 ht =>
    have hbare : strict = true → ∀ e ∈ receiver, cx.isBareNumber e = false := by
      rintro hs e rfl
      simpa [Context.isLegible, Context.allowsReceiver, ht] using hlegible hs
    exact (solid_actionScriptCall hnamed ht hr ha hname hbare hc).reads (Nat.le_refl 12) htree
  case h_2 d ht => exact (solid_cFamilyCall hnamed ht hr ha hname hc).reads (Nat.le_refl 12) htree

end Emitter
