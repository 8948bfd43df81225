import Emitter.Proofs.Expression.Builtins

/-!
# Texts with values in them

An interpolated string is a sum in ActionScript. In the C family it can only be printed, and
becomes the format and the arguments of a call of `printf`.
-/

namespace Emitter

open Layout Program Reading

variable {cx : Context} {strict : Bool} {code : Code}

namespace ActionScript

/-- A value behind a plus sign. -/
theorem piece_summand {sum shown : Code} {tree : Tree} {e : Expr}
    (hsum : Piece cx.target strict 9 sum tree) (h : Printed cx strict e)
    (hc : (cx.operand e).above .add = .ok shown) :
    Piece cx.target strict 9 (sum ++ Code.operator "+" ++ shown) (.binary "+" tree (cx.tree e)) :=
  .binary "+" rfl hsum (h.above (by decide) (by decide) hc)

theorem piece_textSummand {sum : Code} {tree : Tree} (hsum : Piece cx.target strict 9 sum tree)
    (text : String) :
    Piece cx.target strict 9 (sum ++ Code.operator "+" ++ ([.quoted text] : Code))
      (.binary "+" tree (.text text)) :=
  .binary "+" rfl hsum ((Piece.text text).mono (by decide))

theorem interpolatedTail_cons_eq_ok {first : Bool} {hole : Hole} {arg : Operand}
    {rest : List (Hole × Operand)}
    (hc : interpolatedTail cx first ((hole, arg) :: rest) = .ok code) :
    ∃ shown others, arg.above .add = .ok shown ∧
      interpolatedTail cx false rest = .ok others ∧
      code = (if first then [Lexeme.quoted hole.before]
        else if hole.before ≠ "" then Code.operator "+" ++ [Lexeme.quoted hole.before]
        else []) ++ Code.operator "+" ++ shown ++ others := by
  unfold interpolatedTail at hc
  by_cases hplain : (!hole.isPlain) = true
  · simp [hplain, Context.unsupported] at hc
  · rw [if_neg hplain] at hc
    obtain ⟨shown, hshown, hc⟩ := Result.bind_eq_ok.mp hc
    obtain ⟨others, hothers, hc⟩ := Result.bind_eq_ok.mp hc
    exact ⟨shown, others, hshown, hothers, (Except.ok.inj hc).symm⟩

/-- The texts and values behind those that are summed up already. -/
theorem piece_interpolatedTail {parts : List Part}
    (h : ∀ part ∈ parts, Printed cx strict part.arg) {sum chain : Code} {tree : Tree}
    (hsum : Piece cx.target strict 9 sum tree)
    (hc : interpolatedTail cx false (cx.holes parts) = .ok chain) :
    Piece cx.target strict 9 (sum ++ chain) (Context.sumTree tree (cx.holeTerms parts)) := by
  induction parts generalizing sum chain tree with
  | nil =>
      obtain rfl := Except.ok.inj hc
      simpa [Context.holeTerms, Context.sumTree] using hsum
  | cons part rest ih =>
      obtain ⟨hole, arg⟩ := part
      obtain ⟨harg, hrest⟩ := List.forall_mem_cons.mp h
      obtain ⟨shown, others, hshown, hothers, rfl⟩ := interpolatedTail_cons_eq_ok hc
      simp only [Context.holeTerms, Context.sumTree, Bool.false_eq_true, if_false]
      split_ifs with hbefore
      · simpa [Part.arg]
          using ih hrest (piece_summand (piece_textSummand hsum hole.before) harg hshown)
          hothers
      · simpa [Part.arg] using ih hrest (piece_summand hsum harg hshown) hothers

theorem printed_interpolated {parts : List Part} (suffix : String) (ty : Ty)
    (ht : cx.target = .actionScript) (h : ∀ part ∈ parts, Printed cx strict part.arg) :
    Printed cx strict (.interpolated parts suffix ty) := by
  intro code hc
  rw [Context.code] at hc
  simp only [ht] at hc
  obtain ⟨chain, hchain, hc⟩ := Result.bind_eq_ok.mp hc
  have hprio : cx.target.priority (.interpolated parts suffix ty) = .add := by rw [ht]; rfl
  have htree : cx.tree (.interpolated parts suffix ty) =
      Context.interpolatedTree (cx.holeTerms parts) suffix := by rw [Context.tree]
  refine .of_loose ?_ (by rw [hprio]; decide) rfl
  rw [hprio, htree]
  cases parts with
  | nil =>
      obtain rfl := Except.ok.inj hc
      exact (Piece.text suffix).mono (by decide)
  | cons part rest =>
      obtain ⟨hole, arg⟩ := part
      obtain ⟨harg, hrest⟩ := List.forall_mem_cons.mp h
      obtain ⟨shown, others, hshown, hothers, rfl⟩ := interpolatedTail_cons_eq_ok hchain
      have hfirst : Piece cx.target strict 9 [.quoted hole.before] (.text hole.before) :=
        (Piece.text hole.before).mono (by decide)
      have hsum := piece_interpolatedTail hrest (piece_summand hfirst harg hshown) hothers
      simp only [Context.holes, Context.holeTerms, Context.interpolatedTree, List.isEmpty_cons,
        Bool.false_eq_true, if_false, if_true] at hc ⊢
      split_ifs at hc ⊢ with hsuffix
      · obtain rfl := Except.ok.inj hc
        exact List.append_assoc .. ▸ piece_textSummand hsum suffix
      · obtain rfl := Except.ok.inj hc
        exact hsum

end ActionScript

namespace CFamily

variable {d : Dialect}

/-- A value among the arguments of `printf`. -/
theorem piece_printedValue {e : Expr} (ht : cx.target = .cFamily d) (h : Printed cx strict e)
    (hc : printedValue d (cx.operand e) = .ok code) :
    Piece cx.target strict 0 code (printedTree d (cx.term e)) := by
  unfold printedValue at hc
  unfold printedTree
  cases d with
  | standard =>
      simp only [Dialect.longCast] at hc
      change (if e.ty = .int .long then _ else _) = _ at hc
      change Piece cx.target strict 0 code (if e.ty = .int .long then _ else _)
      split_ifs at hc ⊢ with hlong
      · obtain ⟨inner, hinner, hc⟩ := Result.bind_eq_ok.mp hc
        obtain rfl := Except.ok.inj hc
        have htype : Code.Tidy strict [.word "long", .gap, .word "long"] := by
          have hword : Code.Tidy strict [.word "long"] := .word (by decide)
          refine (hword.append (.append .gap hword fun x hx y _ => ?_) fun x hx y hy => ?_)
          · obtain rfl : x = .gap := by simpa using hx.symm
            exact .of_separate_left rfl y
          · obtain rfl : x = .word "long" := by simpa using hx.symm
            obtain rfl : y = .gap := by simpa using hy.symm
            exact .of_separate_right (show isWord "long" = true by decide) rfl (by simp)
        have hends : ∀ x ∈ List.getLast? [.word "long", .gap, .word "long"], Lexeme.Ends x := by
          intro x hx
          obtain rfl : .word "long" = x := Option.some.inj hx
          trivial
        have hcast : Piece cx.target strict 11 _ (.cast ["long", "long"] (cx.tree e)) :=
          (h.operand .prefixed (by decide) hinner).cast htype hends rfl (by simp)
            (by simp [ht, typeWords, typeWords.plain])
        exact hcast.mono (by decide)
      · exact h.argument hc
  | openCL =>
      simp only [Dialect.longCast] at hc
      exact h.argument hc

theorem solid_printfCall {format : String} {es : List Expr} (ht : cx.target = .cFamily d)
    (h : ∀ e ∈ es, Printed cx strict e)
    (hc : printfCall d format (es.map cx.operand) = .ok code) :
    Solid cx strict 12 code (printfTree d (.ok format) (es.map cx.term)) := by
  obtain ⟨rest, hrest, hc⟩ := Result.bind_eq_ok.mp hc
  obtain rfl := Except.ok.inj hc
  rw [List.mapM_map] at hrest
  have hvalue : ∀ e ∈ es, ∀ code, printedValue d (cx.operand e) = .ok code →
      Piece cx.target strict 0 code (printedTree d (cx.term e)) :=
    fun e he code hcode => piece_printedValue ht (h e he) hcode
  obtain ⟨pieces, rfl, hsnd, hpieces⟩ := pieces_mapM hvalue hrest
  have hall : ∀ p ∈ ([.quoted format], Tree.text format) :: pieces,
      Piece cx.target strict 0 p.1 p.2 := by
    exact List.forall_mem_cons.mpr ⟨(Piece.text format).mono (by decide), hpieces⟩
  simpa [printfTree, hsnd, Function.comp_def] using
    (Solid.ofWord (w := "printf") (.inr ⟨_, rfl⟩) (by decide)).call hall

/-- An expression that is no interpolated string is printed as a single value. -/
theorem shown_singleton (cx : Context) (e : Expr) :
    (∃ parts suffix ty, e = .interpolated parts suffix ty) ∨
      cx.shown [e] = [.value (cx.operand e)] ∧ cx.shownTerms [e] = [.value (cx.term e)] := by
  cases e with
  | interpolated parts suffix ty => exact .inl ⟨parts, suffix, ty, rfl⟩
  | _ => exact .inr ⟨rfl, rfl⟩

theorem operand_holeTerms (cx : Context) (parts : List Part) :
    ((cx.holeTerms parts).map fun (hole, arg) => (hole, cx.operand arg.expr)) = cx.holes parts := by
  simp [Context.holeTerms_eq, Context.holes_eq, Function.comp_def, Context.term]

/-- A single value behind its conversion, or a text in the place of a format. -/
theorem solid_printedValue {lineEnd : String} {e : Expr} (ht : cx.target = .cFamily d)
    (h : Printed cx strict e)
    (hc : print cx d lineEnd [.value (cx.operand e)] = .ok code) :
    Solid cx strict 12 code (printTree cx d lineEnd [.value (cx.term e)]) := by
  have hone : ∀ e' ∈ [e], Printed cx strict e' := by simpa using h
  simp only [print, printTree] at hc ⊢
  split at hc
  case h_1 text ty hliteral =>
    have hliteral : (cx.term e).expr = .literal (.str text) ty := hliteral
    simp only [hliteral]
    exact @solid_printfCall cx strict code d _ [] ht (by simp) hc
  case h_2 hvalue =>
    obtain ⟨format, hformat, hc⟩ := Result.bind_eq_ok.mp hc
    have hformat : conversion cx d plainHole (cx.term e).expr.ty = .ok format := hformat
    split
    case h_1 text ty hliteral => exact absurd hliteral (hvalue text ty)
    case h_2 =>
      rw [hformat]
      exact @solid_printfCall cx strict code d _ [e] ht hone hc

/-- Not more than one argument is printed. -/
theorem print_many (cx : Context) (d : Dialect) (lineEnd : String) (e second : Expr)
    (rest : List Expr) : print cx d lineEnd (cx.shown (e :: second :: rest)) =
      cx.unsupported .printArguments := by
  obtain ⟨a, b, more, hmany⟩ : ∃ a b more, cx.shown (e :: second :: rest) = a :: b :: more := by
    cases e <;> cases second <;> exact ⟨_, _, _, rfl⟩
  rw [hmany]
  cases a <;> rfl

/-- A call that prints. -/
theorem solid_printCall {receiver : Option Operand} {m : BuiltinMethod} {lineEnd : String}
    {args : List Expr} (ht : cx.target = .cFamily d) (h : ∀ e ∈ args, Printed cx strict e)
    (hparts : ∀ parts suffix ty, .interpolated parts suffix ty ∈ args →
      ∀ part ∈ parts, Printed cx strict part.arg)
    (hc : printCall cx d receiver m lineEnd (cx.shown args) = .ok code) :
    Solid cx strict 12 code (printTree cx d lineEnd (cx.shownTerms args)) := by
  have hc : print cx d lineEnd (cx.shown args) = .ok code := by
    cases receiver with
    | none => exact hc
    | some obj => simp [printCall, Context.unsupported] at hc
  rcases args with _ | ⟨e, _ | ⟨second, rest⟩⟩
  · exact @solid_printfCall cx strict code d _ [] ht (by simp) hc
  · rcases shown_singleton cx e with ⟨parts, suffix, ty, rfl⟩ | ⟨hshown, hterms⟩
    · obtain ⟨formats, hformats, hc⟩ := Result.bind_eq_ok.mp hc
      have hholes : ((cx.holes parts).map Prod.snd) = (parts.map Part.arg).map cx.operand := by
        simp [Context.holes_eq, Function.comp_def]
      have hterms : ((cx.holeTerms parts).map Prod.snd) = (parts.map Part.arg).map cx.term := by
        simp [Context.holeTerms_eq, Function.comp_def]
      have hargs : ∀ e ∈ parts.map Part.arg, Printed cx strict e := by
        simpa using hparts parts suffix ty (by simp)
      simp only [Context.shownTerms, printTree, operand_holeTerms, hformats, Except.map, hterms]
      exact solid_printfCall ht hargs (hholes ▸ hc)
    · rw [hshown] at hc
      rw [hterms]
      exact solid_printedValue ht (h e (by simp)) hc
  · simp [print_many, Context.unsupported] at hc

end CFamily

/-- The methods that print take their arguments apart in the C family. -/
theorem code_builtinCall (cx : Context) (receiver : Option Expr) (m : BuiltinMethod)
    (args : List Expr) (ty : Ty) :
    cx.code (.call receiver (.builtin m) args ty) =
      match cx.target with
      | .actionScript =>
        ActionScript.builtinCall cx (receiver.map cx.operand) m (args.map cx.operand)
      | .cFamily d =>
        if m = .consoleWrite then
          CFamily.printCall cx d (receiver.map cx.operand) .consoleWrite "" (cx.shown args)
        else if m = .consoleWriteLine then
          CFamily.printCall cx d (receiver.map cx.operand) .consoleWriteLine "\n" (cx.shown args)
        else CFamily.builtinCall cx d (receiver.map cx.operand) m (args.map cx.operand) := by
  cases ht : cx.target with
  | actionScript => simp [Context.code, ht, Context.receiverOperand_eq, Context.operands_eq]
  | cFamily d =>
      cases m <;> simp [Context.code, ht, Context.receiverOperand_eq, Context.operands_eq]

theorem tree_builtinCall (cx : Context) (receiver : Option Expr) (m : BuiltinMethod)
    (args : List Expr) (ty : Ty) :
    cx.tree (.call receiver (.builtin m) args ty) =
      match cx.target with
      | .actionScript =>
        ActionScript.builtinTree cx (receiver.map cx.term) m (args.map cx.term)
      | .cFamily d =>
        if m = .consoleWrite then CFamily.printTree cx d "" (cx.shownTerms args)
        else if m = .consoleWriteLine then CFamily.printTree cx d "\n" (cx.shownTerms args)
        else CFamily.builtinTree cx d (receiver.map cx.term) m (args.map cx.term) := by
  cases ht : cx.target with
  | actionScript => simp [Context.tree, ht, Context.receiverTerm_eq, Context.terms_eq]
  | cFamily d =>
      cases m <;> simp [Context.tree, ht, Context.receiverTerm_eq, Context.terms_eq]

theorem printed_builtinCall {receiver : Option Expr} {m : BuiltinMethod} {args : List Expr}
    (ty : Ty) (hr : ∀ e ∈ receiver, Printed cx strict e) (ha : ∀ e ∈ args, Printed cx strict e)
    (hfactored : ∀ e ∈ args, Factored cx strict e)
    (hparts : ∀ parts suffix ty, .interpolated parts suffix ty ∈ args →
      ∀ part ∈ parts, Printed cx strict part.arg)
    (hlegible : strict = true →
      cx.isLegible (.call receiver (.builtin m) args ty) = true) :
    Printed cx strict (.call receiver (.builtin m) args ty) := by
  intro code hc
  have hallows : strict = true →
      ∀ e ∈ receiver, cx.allowsReceiver e (.builtin m) args = true := by
    rintro hs e rfl
    exact hlegible hs
  have htree := tree_builtinCall cx receiver m args ty
  rw [code_builtinCall] at hc
  cases ht : cx.target with
  | actionScript =>
      simp only [ht] at hc htree
      exact (ActionScript.solid_builtinCall ht hr ha hfactored hallows hc).reads (Nat.le_refl 12)
        htree
  | cFamily d =>
      simp only [ht] at hc htree
      split_ifs at hc htree with hwrite hwriteLine
      · exact (CFamily.solid_printCall ht ha hparts hc).reads (Nat.le_refl 12) htree
      · exact (CFamily.solid_printCall ht ha hparts hc).reads (Nat.le_refl 12) htree
      · rcases CFamily.piece_builtinCall ht hr ha hfactored hallows hc with
          hsolid | ⟨rfl, hpiece, hhead⟩
        · exact hsolid.reads (Nat.le_refl 12) htree
        · exact .of_prefixed (htree ▸ hpiece) (by rw [ht]; rfl) rfl hhead

end Emitter
