import Emitter.Proofs.Expression.Faithful

/-!
# Numbers in front of selectors

A number without parentheses takes in the point and the name behind it, and `-0.0` leaves its sign
in front of whatever follows. What is printed there is not read as a selection.
-/

namespace Emitter

open Layout Number Program Reading Text

variable {cx : Context} {e : Expr} {base : Code}

/-- What a number is printed as. -/
theorem code_of_isBareNumber (h : cx.isBareNumber e = true) (hc : cx.code e = .ok base) :
    (∃ n, 0 ≤ n ∧ cx.isMinusZero e = false ∧ base = .integer n) ∨
      ∃ x : Binary64, x.isFinite = true ∧ (cx.isMinusZero e = true → x.isNegative = true) ∧
        cx.float x = .ok base := by
  have hinteger : ∀ {n : Int64}, 0 ≤ n → 0 ≤ n.toInt := fun hn => by
    simpa using Int64.le_iff_toInt_le.mp hn
  cases e with
  | literal value ty =>
      cases value with
      | int n =>
          have hn : 0 ≤ n := by simpa [Context.isBareNumber, Context.number?] using h
          obtain rfl := Except.ok.inj hc
          exact .inl ⟨n.toInt, hinteger hn, rfl, rfl⟩
      | float x =>
          have hx : x.isFinite = true ∧ x.isBelowZero = false := by
            simpa [Context.isBareNumber, Context.number?] using h
          refine .inr ⟨x, hx.1, fun hzero => ?_, hc⟩
          have : x.isNegative = true ∧ x.isZero = true := by
            simpa [Context.isMinusZero, Context.number?] using hzero
          exact this.1
      | _ => simp [Context.isBareNumber, Context.number?] at h
  | const owner name ty =>
      cases hk : cx.inlined? owner name with
      | none => simp [Context.isBareNumber, Context.number?, hk] at h
      | some k =>
          have hnumber : cx.number? (.const owner name ty) = some k.value := by
            simp [Context.number?, hk]
          have ht : cx.target = .actionScript := by
            cases ht : cx.target with
            | actionScript => rfl
            | cFamily d => simp [Context.inlined?, ht] at hk
          simp only [Context.inlined?, ht, Option.bind_eq_some_iff] at hk
          obtain ⟨c, hclass, hfind⟩ := hk
          rw [Context.code, Context.constant] at hc
          simp only [ht] at hc
          obtain ⟨c', hcls, hc⟩ := Result.bind_eq_ok.mp hc
          obtain rfl : c = c' := Option.some.inj (hclass.symm.trans (Context.classOf_eq_ok hcls))
          simp only [hfind] at hc
          obtain ⟨value, hvalue, hc⟩ := Result.bind_eq_ok.mp hc
          cases hv : k.value with
          | int n =>
              rw [hv] at hnumber hvalue hc
              have hn : 0 ≤ n := by simpa [Context.isBareNumber, hnumber] using h
              obtain rfl := Except.ok.inj hvalue
              have hbelow : ¬n < 0 := Int64.not_lt.mpr hn
              refine .inl ⟨n.toInt, hinteger hn, by simp [Context.isMinusZero, hnumber], ?_⟩
              simpa [ConstValue.isBelowZero, hbelow] using (Except.ok.inj hc).symm
          | float x =>
              rw [hv] at hnumber hvalue hc
              have hx : x.isFinite = true ∧ x.isBelowZero = false := by
                simpa [Context.isBareNumber, hnumber] using h
              refine .inr ⟨x, hx.1, fun hzero => ?_, ?_⟩
              · have : x.isNegative = true ∧ x.isZero = true := by
                  simpa [Context.isMinusZero, hnumber] using hzero
                exact this.1
              · have hbase : value = base := by
                  simpa [ConstValue.isBelowZero, hx.2] using Except.ok.inj hc
                exact hbase ▸ hvalue
          | _ => simp [Context.isBareNumber, hnumber, hv] at h
  | _ => simp [Context.isBareNumber, Context.number?] at h

/-- A finite number is printed with its sign in front of its magnitude. -/
theorem float_of_isFinite {x : Binary64} (hx : x.isFinite = true) (hc : cx.float x = .ok base) :
    base = Context.finiteFloat x := by
  have hexponent : x.exponentField ≠ 2047 := by simpa [Binary64.isFinite] using hx
  have hnan : x.isNaN = false := by simp [Binary64.isNaN, hexponent]
  have hinf : x.isInfinite = false := by simp [Binary64.isInfinite, hexponent]
  unfold Context.float at hc
  cases ht : cx.target <;> simp [ht, hnan, hinf, hx] at hc <;> exact hc.symm

/-- A number in front of a selector is a numeral, with a sign only where it is `-0.0`. -/
theorem base_of_isBareNumber (h : cx.isBareNumber e = true)
    (hc : (cx.operand e).atLeast .postfixed = .ok base) :
    ∃ text, IsNumeral text ∧ (base = [.symbol "-", .number text] ∨
      cx.isMinusZero e = false ∧ base = [.number text]) := by
  have hprio : cx.target.priority e = .primary := by
    cases e with
    | literal value ty =>
        cases value with
        | int n =>
            have hn : ¬n < 0 := by
              simpa [Context.isBareNumber, Context.number?] using h
            cases cx.target <;> simp [Target.priority, Expr.priority, Literal.isBelowZero, hn]
        | float x =>
            have hx : x.isFinite = true ∧ x.isBelowZero = false := by
              simpa [Context.isBareNumber, Context.number?] using h
            cases cx.target <;> simp [Target.priority, Expr.priority, Literal.isBelowZero, hx]
        | _ => simp [Context.isBareNumber, Context.number?] at h
    | const owner name ty => cases cx.target <;> rfl
    | _ => simp [Context.isBareNumber, Context.number?] at h
  have hc : cx.code e = .ok base := by
    unfold Operand.atLeast at hc
    rwa [if_neg (show ¬(cx.operand e).priority < .postfixed by
      rw [show (cx.operand e).priority = .primary from hprio]; decide)] at hc
  rcases code_of_isBareNumber h hc with ⟨n, hn, hzero, rfl⟩ | ⟨x, hx, hzero, hfloat⟩
  · exact ⟨_, isNumeral_toString n.natAbs, .inr ⟨hzero, by simp [Code.integer, not_lt.mpr hn]⟩⟩
  · rw [float_of_isFinite hx hfloat]
    unfold Context.finiteFloat
    refine ⟨_, isNumeral_magnitudeText x, ?_⟩
    split_ifs with hneg
    · exact .inl rfl
    · exact .inr ⟨by simpa using mt hzero hneg, rfl⟩

theorem numberTail_of_continues {cs : List Char}
    (h : ∀ c ∈ cs, isWordChar c = true ∨ c = '.') (before : Char) :
    numberTail before cs = true := by
  induction cs generalizing before with
  | nil => rfl
  | cons c cs ih =>
      obtain ⟨hc, hcs⟩ := List.forall_mem_cons.mp h
      have hcontinues : continuesNumber before c = true := by
        rcases hc with hc | rfl <;> simp [continuesNumber, *]
      simp [numberTail, hcontinues, ih hcs]

/-- Letters, digits and points behind a number belong to it. -/
theorem isNumber_append {text more : String} (h : isNumber text = true)
    (hmore : ∀ c ∈ more.toList, isWordChar c = true ∨ c = '.') :
    isNumber (text ++ more) = true := by
  have happend : ∀ {as : List Char} {before : Char}, numberTail before as = true →
      numberTail before (as ++ more.toList) = true := by
    intro as
    induction as with
    | nil => exact fun _ => numberTail_of_continues hmore _
    | cons a as ih =>
        intro before has
        obtain ⟨ha, has⟩ : continuesNumber before a = true ∧ numberTail a as = true := by
          simpa [numberTail] using has
        simp [numberTail, ha, ih has]
  cases ht : text.toList with
  | nil => simp [isNumber, ht] at h
  | cons c cs =>
      obtain ⟨hc, hcs⟩ : c.isDigit = true ∧ numberTail c cs = true := by
        simpa [isNumber, ht] using h
      simp [isNumber, ht, hc, happend hcs]

/-- The number that a compiler reads where a name is to be selected from a number. -/
theorem Reading.IsNumeral.select {text w : String} (h : IsNumeral text) (hw : isWord w = true)
    (hlast : ∃ c ∈ w.toList.getLast?, c ∉ ['e', 'E', 'p', 'P']) :
    IsNumeral (text ++ ("." ++ w)) where
  number := by
    refine isNumber_append h.number fun c hc => ?_
    rw [String.toList_append, List.mem_append] at hc
    rcases hc with hc | hc
    · exact .inr (by simpa using hc)
    · exact .inl (isWordChar_of_isWord hw c hc)
  last := by
    obtain ⟨c, hc, hexp⟩ := hlast
    have hw : w.toList.getLast? = some c := hc
    simpa [List.getLast?_append, List.getLast?_cons, hw] using hexp

theorem text_select (text w : String) (rest : Code) :
    Code.text (.number text :: .symbol "." :: .word w :: rest) =
      Code.text (.number (text ++ ("." ++ w)) :: rest) := by
  apply String.toList_inj.mp
  simp [Code.toList_text, Lexeme.text]

/-- The same code with the number that is read in front of it, behind the sign of `-0.0`. -/
theorem readsAs_of_select {t : Target} {text w : String} {rest : Code} {tree : Tree}
    (h : Piece t true 12 (.number (text ++ ("." ++ w)) :: rest) tree)
    (hbase : base = [.symbol "-", .number text] ∨ base = [.number text]) :
    Code.ReadsAs t (base ++ .symbol "." :: .word w :: rest) (.prefixed "-" tree) ∨
      Code.ReadsAs t (base ++ .symbol "." :: .word w :: rest) tree := by
  have hsame : ∀ {a b : Code} {tree' : Tree}, a.text = b.text → b.ReadsAs t tree' →
      a.ReadsAs t tree' := by
    rintro a b tree' htext ⟨tokens, hscan, hparses⟩
    exact ⟨tokens, htext ▸ hscan, hparses⟩
  rcases hbase with rfl | rfl
  · left
    have hminus : Piece t true 11 (.symbol "-" :: .number (text ++ ("." ++ w)) :: rest)
        (.prefixed "-" tree) := by
      refine (h.mono (by decide)).prefixed (symbol_mem_prefixOperators _ (by decide)) (by decide)
        (fun _ _ x hx => ?_) fun _ hand => by simp at hand
      obtain rfl := Option.some.inj hx
      simp
    refine hsame ?_ hminus.readsAs
    have htext := text_select text w rest
    simp only [Code.text, List.map_cons, List.cons_append, List.nil_append, String.join_cons]
      at htext ⊢
    rw [htext]
  · exact .inr (hsame (text_select text w rest) h.readsAs)

/-- A selection from a bare number is read as a number. -/
theorem not_readsAs_member {t : Target} {text w : String} {tree : Tree} (htext : IsNumeral text)
    (hw : isWord w = true) (hlast : ∃ c ∈ w.toList.getLast?, c ∉ ['e', 'E', 'p', 'P'])
    (hbase : base = [.symbol "-", .number text] ∨ base = [.number text]) :
    ¬Code.ReadsAs t (base ++ [Lexeme.symbol ".", Lexeme.word w]) (.member tree "." w) := by
  intro h
  have hnumeral := htext.select hw hlast
  have hpiece : Piece t true 12 [.number (text ++ ("." ++ w))] (.number (text ++ ("." ++ w))) :=
    (Piece.number hnumeral.number hnumeral.last).mono (by decide)
  rcases readsAs_of_select hpiece hbase with hread | hread
  · exact nomatch h.unique hread rfl
  · exact nomatch h.unique hread rfl

/-- And so is the callee of a method of a bare number. -/
theorem not_readsAs_methodCall {t : Target} {text w : String} {tree : Tree}
    {pieces : List (Code × Tree)} (htext : IsNumeral text) (hw : isWord w = true)
    (hlast : ∃ c ∈ w.toList.getLast?, c ∉ ['e', 'E', 'p', 'P'])
    (hbase : base = [.symbol "-", .number text] ∨ base = [.number text])
    (h : ∀ p ∈ pieces, Piece t true 0 p.1 p.2) :
    ¬Code.ReadsAs t (base ++ .symbol "." :: .word w ::
        Code.parenthesized (Code.commaSeparated (pieces.map Prod.fst)))
      (.call (.member tree "." w) (pieces.map Prod.snd)) := by
  intro hread
  have hnumeral := htext.select hw hlast
  have hpiece : Piece t true 12 [.number (text ++ ("." ++ w))] (.number (text ++ ("." ++ w))) :=
    (Piece.number hnumeral.number hnumeral.last).mono (by decide)
  rcases readsAs_of_select (hpiece.call h) hbase with hread' | hread'
  · exact nomatch hread.unique hread' rfl
  · exact nomatch (Tree.call.inj (hread.unique hread' rfl)).1

/-- An element of `-0.0` is read with the sign in front of the whole. -/
theorem piece_elementOfMinusZero {t : Target} {text : String} {position : Code} {tree : Tree}
    (htext : IsNumeral text) (h : Piece t true 0 position tree) :
    Piece t true 11
      ([Lexeme.symbol "-", Lexeme.number text] ++ Lexeme.symbol "[" ::
        (position ++ [Lexeme.symbol "]"]))
      (.prefixed "-" (.element (.number text) tree)) := by
  have hnumber : Piece t true 12 [.number text] (.number text) :=
    (Piece.number htext.number htext.last).mono (by decide)
  refine ((hnumber.element h).mono (by decide)).prefixed (symbol_mem_prefixOperators _ (by decide))
    (by decide) (fun _ _ x hx => ?_) fun _ hand => by simp at hand
  obtain rfl := Option.some.inj hx
  simp

end Emitter
