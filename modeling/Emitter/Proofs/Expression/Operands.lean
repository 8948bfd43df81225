import Emitter.Proofs.Expression.Legible

/-!
# Operands read as their trees

What is shown of the printed form of every expression, and what follows where it stands as an
operand: it is of the level that its place asks for, with parentheses or without.
-/

namespace Emitter

open Layout Program Reading

theorem Result.bind_eq_ok {α β : Type} {x : Result α} {next : α → Result β} {b : β} :
    x >>= next = .ok b ↔ ∃ a, x = .ok a ∧ next a = .ok b := by
  cases x <;> simp [bind, Except.bind]

theorem Result.map_eq_ok {α β : Type} {x : Result α} {f : α → β} {b : β} :
    x.map f = .ok b ↔ ∃ a, x = .ok a ∧ f a = b := by
  cases x <;> simp [Except.map]

/-- What goes through item by item. -/
theorem Result.forall₂_of_mapM_eq_ok {α β : Type} {f : α → Result β} {items : List α}
    {results : List β} (h : items.mapM f = .ok results) :
    List.Forall₂ (fun a b => f a = .ok b) items results := by
  induction items generalizing results with
  | nil =>
      obtain rfl := Except.ok.inj h
      exact .nil
  | cons a rest ih =>
      rw [List.mapM_cons] at h
      obtain ⟨first, hfirst, h⟩ := Result.bind_eq_ok.mp h
      obtain ⟨others, hothers, h⟩ := Result.bind_eq_ok.mp h
      obtain rfl := Except.ok.inj h
      exact .cons hfirst (ih hothers)

/-- The printed form of an expression reads as the expression's tree, and what it starts and ends
with is as its priority promises. -/
structure Reads (cx : Context) (strict : Bool) (e : Expr) (code : Code) : Prop where
  piece : Piece cx.target strict (cx.grade e) code (cx.tree e)
  number : strict = true → .postfixed ≤ cx.target.priority e →
    ∀ text, .number text ∈ code.getLast? → cx.isBareNumber e = true
  sign : strict = true → .prefixed ≤ cx.target.priority e →
    ∀ x ∈ code.head?, x = .symbol "-" ∨ x = .symbol "--" →
      (cx.operand e).startsWithSign = true ∨ cx.hidesSign e = true
  address : strict = true → .prefixed ≤ cx.target.priority e → ∀ x ∈ code.head?, x ≠ .symbol "&"

/-- Wherever the expression can be printed, it reads as its tree. -/
def Printed (cx : Context) (strict : Bool) (e : Expr) : Prop :=
  ∀ code, cx.code e = .ok code → Reads cx strict e code

/-- Code in the place of an operand that a postfix operator or a selector may follow. -/
structure Base (cx : Context) (strict : Bool) (e : Expr) (code : Code) : Prop where
  piece : Piece cx.target strict 12 code (cx.tree e)
  number : strict = true → ∀ text, .number text ∈ code.getLast? → cx.isBareNumber e = true
  head : strict = true →
    ∀ x ∈ code.head?, x ≠ .symbol "-" ∧ x ≠ .symbol "--" ∧ x ≠ .symbol "&"

namespace Layout.Piece

variable {t : Target} {level : Nat} {code : Code} {tree : Tree}

/-- Code that is not strict promises no tree, so it does for any level. -/
theorem of_not_strict {strict : Bool} {level' : Nat} {tree' : Tree}
    (h : Piece t strict level code tree) (hs : strict = false) :
    Piece t strict level' code tree' :=
  { h with parses := fun hstrict => by simp [hs] at hstrict }

end Layout.Piece

theorem getLast?_parenthesized (code : Code) :
    code.parenthesized.getLast? = some (.symbol ")") := by
  rw [Code.parenthesized, List.cons_append, getLast?_bracketed]

namespace Printed

variable {cx : Context} {strict : Bool} {e : Expr} {code : Code}

/-- An operand between parentheses. -/
theorem parenthesized (h : Printed cx strict e) (hc : (cx.operand e).parenthesized = .ok code)
    (hprimary : cx.target.priority e ≠ .primary) :
    Piece cx.target strict 13 code (cx.tree e) := by
  obtain ⟨inner, hinner, rfl⟩ := Result.map_eq_ok.mp hc
  exact ((h inner hinner).piece.mono (Nat.zero_le _)).group
    (Tree.not_isType (Context.isName_tree hprimary))

theorem ne_primary {a least : Priority} (h : a < least) : a ≠ .primary := by
  revert h
  cases a <;> cases least <;> decide

/-- An operand in a place that asks for a priority up to that of prefix operators, or for one that
`-0.0` does not have. -/
theorem atLeast (h : Printed cx strict e) (least : Priority) (hleast : least.level ≤ 12)
    (hzero : strict = true → cx.isMinusZero e = true → least.level ≤ 11)
    (hc : (cx.operand e).atLeast least = .ok code) :
    Piece cx.target strict least.level code (cx.tree e) := by
  unfold Operand.atLeast at hc
  split_ifs at hc with hprio
  · exact (h.parenthesized hc (ne_primary hprio)).mono (by omega)
  · have hpiece := (h code hc).piece
    cases hs : strict with
    | false => exact hs ▸ hpiece.of_not_strict hs
    | true =>
        rw [← hs]
        refine hpiece.mono ?_
        unfold Context.grade
        split_ifs with hminus
        · exact hzero hs hminus
        · exact Priority.level_mono hprio

/-- An operand in a place that asks for less than a postfix operator does. -/
theorem operand (h : Printed cx strict e) (least : Priority) (hleast : least.level ≤ 11)
    (hc : (cx.operand e).atLeast least = .ok code) :
    Piece cx.target strict least.level code (cx.tree e) :=
  h.atLeast least (hleast.trans (by decide)) (fun _ _ => hleast) hc

/-- An operand beside an operator that does not associate on this side. -/
theorem above (h : Printed cx strict e) {bound : Priority} (hbound : bound ≤ .mul)
    (hselect : .select ≤ bound) (hc : (cx.operand e).above bound = .ok code) :
    Piece cx.target strict (bound.level + 1) code (cx.tree e) := by
  have hlevel : bound.level + 1 ≤ 11 := by
    revert hbound
    cases bound <;> decide
  unfold Operand.above at hc
  split_ifs at hc with hprio
  · refine (h.parenthesized hc fun hprimary => ?_).mono (by omega)
    rw [show (cx.operand e).priority = .primary from hprimary] at hprio
    revert hprio hbound
    cases bound <;> decide
  · refine (h code hc).piece.mono ?_
    unfold Context.grade
    split_ifs
    · exact hlevel
    · exact Priority.level_lt hprio hbound hselect

theorem priority_of_startsWithSign (h : (cx.operand e).startsWithSign = true) :
    cx.target.priority e = .prefixed := by
  cases e with
  | literal value ty =>
      cases value with
      | int n =>
          have hn : n < 0 := by simpa [Context.operand, Operand.startsWithSign] using h
          cases ht : cx.target <;>
            simp [Target.priority, Expr.priority, Literal.isBelowZero, hn]
      | _ => simp [Context.operand, Operand.startsWithSign] at h
  | unary op operand ty =>
      cases op <;> simp [Context.operand, Operand.startsWithSign] at h <;>
        cases cx.target <;> rfl
  | _ => simp [Context.operand, Operand.startsWithSign] at h

theorem priority_of_hidesSign (h : cx.hidesSign e = true) (hzero : cx.isMinusZero e = false) :
    cx.target.priority e = .prefixed := by
  cases e with
  | literal value ty =>
      cases value with
      | float x =>
          have hx : x.isBelowZero = true := by simpa [Context.hidesSign, hzero] using h
          cases cx.target <;> simp [Target.priority, Expr.priority, Literal.isBelowZero, hx]
      | _ => simp [Context.hidesSign, hzero] at h
  | _ => simp [Context.hidesSign, hzero] at h

/-- An operand in front of a selector, a bracket or a postfix operator. -/
theorem base (h : Printed cx strict e) (hzero : strict = true → cx.isMinusZero e = false)
    (hc : (cx.operand e).atLeast .postfixed = .ok code) : Base cx strict e code := by
  have hpiece := h.atLeast .postfixed (by decide)
    (fun hs hminus => by simp [hzero hs] at hminus) hc
  unfold Operand.atLeast at hc
  split_ifs at hc with hprio
  · obtain ⟨inner, hinner, rfl⟩ := Result.map_eq_ok.mp hc
    refine ⟨hpiece, fun _ text htext => ?_, fun _ x hx => ?_⟩
    · simp [getLast?_parenthesized] at htext
    · obtain rfl : .symbol "(" = x := Option.some.inj hx
      decide
  · have hreads := h code hc
    have hpostfixed : .postfixed ≤ cx.target.priority e := Nat.le_of_not_lt hprio
    refine ⟨hpiece, fun hs => hreads.number hs hpostfixed, fun hs x hx => ?_⟩
    have hprefixed : .prefixed ≤ cx.target.priority e :=
      Nat.le_trans (show Priority.prefixed.rank ≤ Priority.postfixed.rank by decide) hpostfixed
    rw [← and_assoc, ← not_or]
    refine ⟨fun hsign => ?_, hreads.address hs hprefixed x hx⟩
    have hprio : cx.target.priority e = .prefixed := by
      rcases hreads.sign hs hprefixed x hx hsign with hstarts | hhides
      · exact priority_of_startsWithSign hstarts
      · exact priority_of_hidesSign hhides (hzero hs)
    rw [hprio] at hpostfixed
    revert hpostfixed
    decide

end Printed

end Emitter
