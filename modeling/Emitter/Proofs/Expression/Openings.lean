import Emitter.Proofs.Expression.Faithful

/-!
# What printed expressions start with

A minus, or something else. An expression that needs no parentheses in front of a selector starts
with a minus only where `-0.0` stands at its left end, as a literal or as a constant that is printed
by its value: that one gets no parentheses in front of a selector either.
-/

namespace Emitter

open Layout Number Program Reading

variable {cx : Context} {e : Expr} {code : Code}

namespace Context

/-- A call is printed with its receiver in front. -/
def startsWithReceiver (cx : Context) (callee : Callee) (args : List Expr) : Bool :=
  match cx.target, callee with
  | .actionScript, .user .. | _, .builtin .charAt => true
  | .actionScript, .builtin .substring => !args.head?.any Expr.hasSideEffect
  | _, _ => false

mutual

/-- The printed form starts with `-0.0`, which gets no parentheses in front of a selector. -/
def opensWithMinusZero (cx : Context) : Expr → Bool
  | .literal value ty => cx.isMinusZero (.literal value ty)
  | .const owner name ty => cx.isMinusZero (.const owner name ty)
  | .field obj _ _ => opensWithMinusZero cx obj
  | .property obj .stringLength _ => decide (cx.target = .actionScript) && opensWithMinusZero cx obj
  | .call receiver callee args _ =>
    cx.startsWithReceiver callee args && receiverOpensWithMinusZero cx receiver
  | .index array _ _ => opensWithMinusZero cx array
  | .unary op operand _ => op.isPostfix && opensWithMinusZero cx operand
  | _ => false

def receiverOpensWithMinusZero (cx : Context) : Option Expr → Bool
  | none => false
  | some e => opensWithMinusZero cx e

end

end Context

/-! A prefix operator only meets the first lexeme of its operand. Each production is followed to the
operand that it starts with. -/

/-- A minus, also as the first half of a decrement. -/
def Layout.Lexeme.isMinus (l : Lexeme) : Bool := decide (l = .symbol "-" ∨ l = .symbol "--")

/-- The code starts with a lexeme that is a minus, or with one that is none. -/
def Layout.Code.Opens (code : Code) (minus : Bool) : Prop := ∃ l ∈ code.head?, l.isMinus = minus

theorem Layout.Code.Opens.append {base : Code} {minus : Bool} (h : base.Opens minus) (rest : Code) :
    Code.Opens (base ++ rest) minus := by
  obtain ⟨l, hl, hminus⟩ := h
  cases base with
  | nil => simp at hl
  | cons first base => exact ⟨l, hl, hminus⟩

theorem Layout.Code.Opens.append_cons {base : Code} {l : Lexeme} {minus : Bool}
    (h : Code.Opens (base ++ [l]) minus) (rest : Code) : Code.Opens (base ++ l :: rest) minus := by
  simpa using h.append rest

theorem Layout.Code.opens_cons {l : Lexeme} {minus : Bool} (h : l.isMinus = minus) (rest : Code) :
    Code.Opens (l :: rest) minus := ⟨l, rfl, h⟩

/-- What starts with `-0.0` binds as tightly as its selectors. -/
theorem postfixed_le_priority (h : cx.opensWithMinusZero e = true) :
    .postfixed ≤ cx.target.priority e := by
  have hprimary : ∀ p : Priority, p = .primary ∨ p = .postfixed → .postfixed ≤ p := by
    rintro p (rfl | rfl) <;> decide
  apply hprimary
  cases e with
  | literal value ty =>
      cases value with
      | float x =>
          have hx : x.isNegative = true ∧ x.isZero = true := by
            simpa [Context.opensWithMinusZero, Context.isMinusZero, Context.number?] using h
          cases cx.target <;>
            simp [Target.priority, Expr.priority, Literal.isBelowZero, Binary64.isBelowZero, hx]
      | _ => simp [Context.opensWithMinusZero, Context.isMinusZero, Context.number?] at h
  | const owner name ty => exact .inl (by cases cx.target <;> rfl)
  | field | index => exact .inr (by cases cx.target <;> rfl)
  | property obj accessor ty =>
      cases accessor <;> simp [Context.opensWithMinusZero] at h
      simp [h.1, Target.priority, Expr.priority]
  | call receiver callee args ty =>
      have hstarts : cx.startsWithReceiver callee args = true := by
        simp only [Context.opensWithMinusZero, Bool.and_eq_true] at h
        exact h.1
      cases ht : cx.target with
      | actionScript => exact .inr rfl
      | cFamily d =>
          cases callee with
          | user => simp [Context.startsWithReceiver, ht] at hstarts
          | builtin m =>
              cases m <;> simp_all [Context.startsWithReceiver, Target.priority, Expr.priority]
  | unary op operand ty =>
      simp only [Context.opensWithMinusZero, Bool.and_eq_true] at h
      cases cx.target <;> simp [Target.priority, Expr.priority, h.1]
  | _ => simp [Context.opensWithMinusZero] at h

/-- The left end of a selection starts with a minus only if it is printed with one and without
parentheses. -/
theorem opens_base
    (h : ∀ code, cx.code e = .ok code → .postfixed ≤ cx.target.priority e →
      code.Opens (cx.opensWithMinusZero e))
    {base : Code} (hc : (cx.operand e).atLeast .postfixed = .ok base) :
    base.Opens (cx.opensWithMinusZero e) := by
  unfold Operand.atLeast at hc
  split_ifs at hc with hprio
  · obtain ⟨inner, -, rfl⟩ := Result.map_eq_ok.mp hc
    cases hopens : cx.opensWithMinusZero e with
    | false => exact Code.opens_cons rfl _
    | true => exact absurd hprio (Nat.not_lt.mpr (postfixed_le_priority hopens))
  · exact h base hc (Nat.le_of_not_lt hprio)

/-- A floating-point number that is not below zero shows its sign only if it is zero. -/
theorem opens_float {x : Binary64} (hx : x.isBelowZero = false) (hc : cx.float x = .ok code) :
    code.Opens (x.isNegative && x.isZero) := by
  have hfinite : x.isNaN = false → (Context.finiteFloat x).Opens (x.isNegative && x.isZero) := by
    intro hnan
    cases hneg : x.isNegative with
    | false =>
        simp only [Context.finiteFloat, hneg, Bool.false_eq_true, if_false, Bool.false_and]
        exact Code.opens_cons rfl _
    | true =>
        have hzero : x.isZero = true := by simpa [Binary64.isBelowZero, hneg, hnan] using hx
        simp only [Context.finiteFloat, hneg, hzero, if_true, Bool.and_self]
        exact Code.opens_cons rfl _
  have hspecial : x.exponentField = 2047 → (x.isNegative && x.isZero) = false := fun h => by
    simp [Binary64.isZero, h]
  unfold Context.float at hc
  cases ht : cx.target with
  | actionScript =>
      simp only [ht] at hc
      split_ifs at hc with hnan hinfinite hneg
      · obtain rfl := Except.ok.inj hc
        simp only [Binary64.isNaN, decide_eq_true_eq] at hnan
        exact hspecial hnan.1 ▸ Code.opens_cons rfl _
      · simp only [Binary64.isInfinite, decide_eq_true_eq] at hinfinite
        simp [Binary64.isBelowZero, hneg, hnan, Binary64.isZero, hinfinite] at hx
      · obtain rfl := Except.ok.inj hc
        simp only [Binary64.isInfinite, decide_eq_true_eq] at hinfinite
        exact hspecial hinfinite.1 ▸ Code.opens_cons rfl _
      · obtain rfl := Except.ok.inj hc
        exact hfinite (by simpa using hnan)
  | cFamily d =>
      simp only [ht] at hc
      split_ifs at hc with hfin
      · obtain rfl := Except.ok.inj hc
        have hexponent : x.exponentField ≠ 2047 := by simpa [Binary64.isFinite] using hfin
        exact hfinite (by simp [Binary64.isNaN, hexponent])
      · simp [Context.unsupported] at hc

theorem opens_float_of_isBelowZero {x : Binary64} (hx : x.isBelowZero = true)
    (hc : cx.float x = .ok code) : code.Opens true := by
  obtain ⟨hneg, hnan⟩ : x.isNegative = true ∧ x.isNaN = false := by
    simp only [Binary64.isBelowZero, Bool.and_eq_true, Bool.not_eq_true'] at hx
    exact ⟨hx.1.1, hx.2⟩
  have hfinite : (Context.finiteFloat x).Opens true := by
    rw [Context.finiteFloat, if_pos hneg]
    exact Code.opens_cons rfl _
  unfold Context.float at hc
  simp only [hnan, hneg, if_true, Bool.false_eq_true, if_false] at hc
  cases ht : cx.target with
  | actionScript =>
      simp only [ht] at hc
      split_ifs at hc
      · obtain rfl := Except.ok.inj hc
        exact Code.opens_cons rfl _
      · exact Except.ok.inj hc ▸ hfinite
  | cFamily d =>
      simp only [ht] at hc
      split_ifs at hc
      · exact Except.ok.inj hc ▸ hfinite
      · simp [Context.unsupported] at hc

theorem opens_integer {n : Int} (hn : 0 ≤ n) : (Code.integer n).Opens false := by
  rw [Code.integer, if_neg (not_lt.mpr hn)]
  exact Code.opens_cons rfl _

theorem opens_truth (b : Bool) : (cx.truth b).Opens false := by
  unfold Context.truth
  cases cx.target <;> exact Code.opens_cons rfl _

theorem opens_literal {value : Literal} {ty : Ty} (hc : cx.literal value = .ok code)
    (hvalue : value.isBelowZero = false) :
    code.Opens (cx.opensWithMinusZero (.literal value ty)) := by
  cases value with
  | int n =>
      have hn : 0 ≤ n := by simpa [Literal.isBelowZero] using hvalue
      obtain rfl := Except.ok.inj hc
      exact opens_integer (by simpa using Int64.le_iff_toInt_le.mp hn)
  | float x =>
      simpa [Context.opensWithMinusZero, Context.isMinusZero, Context.number?] using
        opens_float hvalue hc
  | bool b =>
      obtain rfl := Except.ok.inj hc
      exact opens_truth b
  | str text =>
      obtain rfl := Except.ok.inj hc
      exact Code.opens_cons rfl _
  | null =>
      obtain rfl := Except.ok.inj hc
      unfold Context.null
      cases cx.target <;> exact Code.opens_cons rfl _

theorem opens_enumValue {id : EnumId} {i : UInt64} (hc : cx.enumValue id i = .ok code) :
    code.Opens false := by
  obtain ⟨e, -, hc⟩ := Result.bind_eq_ok.mp hc
  split at hc
  · simp [Context.unsupported] at hc
  · split at hc <;> obtain rfl := Except.ok.inj hc <;> exact Code.opens_cons rfl _

/-- The value is `-0.0`. -/
def Program.ConstValue.isMinusZero : ConstValue → Bool
  | .float x => x.isNegative && x.isZero
  | _ => false

/-- A value that is printed in the place of a constant. -/
theorem opens_constValue {v : ConstValue} {value : Code} (hc : cx.constValue v = .ok value) :
    (if v.isBelowZero then value.parenthesized else value).Opens v.isMinusZero := by
  cases v with
  | int n =>
      obtain rfl := Except.ok.inj hc
      simp only [ConstValue.isBelowZero, decide_eq_true_eq]
      split_ifs with hn
      · exact Code.opens_cons rfl _
      · exact opens_integer (by simpa using Int64.le_iff_toInt_le.mp (Int64.not_lt.mp hn))
  | float x =>
      change (if x.isBelowZero then value.parenthesized else value).Opens (x.isNegative && x.isZero)
      by_cases hx : x.isBelowZero = true
      · have hzero : x.isZero = false := by
          simp only [Binary64.isBelowZero, Bool.and_eq_true, Bool.not_eq_true'] at hx
          exact hx.1.2
        rw [if_pos hx, hzero, Bool.and_false]
        exact Code.opens_cons rfl _
      · rw [if_neg hx]
        exact opens_float (by simpa using hx) hc
  | bool b =>
      obtain rfl := Except.ok.inj hc
      exact opens_truth b
  | str text =>
      obtain rfl := Except.ok.inj hc
      exact Code.opens_cons rfl _
  | enumValue id i => exact opens_enumValue hc
  | array items =>
      obtain ⟨pieces, -, htable⟩ := Result.bind_eq_ok.mp hc
      obtain rfl := Except.ok.inj htable
      change (cx.table (Code.commaSeparated pieces)).Opens false
      unfold Context.table
      cases cx.target <;> exact Code.opens_cons rfl _

theorem opens_classPrefix {owner : ClassId} {qualifier : Code} (name : String)
    (hc : ActionScript.classPrefix cx owner = .ok qualifier) :
    Code.Opens (qualifier ++ [Lexeme.word name]) false := by
  unfold ActionScript.classPrefix at hc
  split_ifs at hc
  · obtain rfl := Except.ok.inj hc
    exact Code.opens_cons rfl _
  · obtain ⟨c, -, hc⟩ := Result.bind_eq_ok.mp hc
    obtain rfl := Except.ok.inj hc
    exact Code.opens_cons rfl _

theorem opens_const {owner : ClassId} {name : String} {ty : Ty}
    (hc : cx.constant owner name = .ok code) :
    code.Opens (cx.opensWithMinusZero (.const owner name ty)) := by
  rw [Context.constant] at hc
  simp only [Context.opensWithMinusZero, Context.isMinusZero, Context.number?]
  cases ht : cx.target with
  | actionScript =>
      simp only [ht] at hc
      obtain ⟨c, hcls, hc⟩ := Result.bind_eq_ok.mp hc
      have hinlined : cx.inlined? owner name =
          c.consts.find? fun k => k.name = name && k.visibility ≠ .exported := by
        simp [Context.inlined?, ht, Context.classOf_eq_ok hcls]
      split at hc
      case h_1 k hk =>
        obtain ⟨value, hvalue, hc⟩ := Result.bind_eq_ok.mp hc
        obtain rfl := Except.ok.inj hc
        simp only [hinlined, hk, Option.map_some]
        have hopens := opens_constValue hvalue
        generalize k.value = v at hopens ⊢
        cases v <;> exact hopens
      case h_2 hk =>
        obtain ⟨qualifier, hqualifier, hc⟩ := Result.bind_eq_ok.mp hc
        obtain rfl := Except.ok.inj hc
        simp only [hinlined, hk, Option.map_none]
        exact opens_classPrefix _ hqualifier
  | cFamily d =>
      simp only [ht] at hc
      obtain ⟨c, -, hc⟩ := Result.bind_eq_ok.mp hc
      obtain rfl := Except.ok.inj hc
      simp only [Context.inlined?, ht, Option.map_none]
      exact Code.opens_cons rfl _

section Receivers

variable {receiver : Option Expr} {args : List Expr}
  (h : ∀ e ∈ receiver, ∀ code, cx.code e = .ok code → .postfixed ≤ cx.target.priority e →
    code.Opens (cx.opensWithMinusZero e))

include h

theorem opens_userCall {owner : ClassId} {name : String} {isStatic : Bool}
    (hc : cx.userCall (receiver.map cx.operand) owner name isStatic
      (args.map cx.operand) = .ok code) :
    code.Opens (cx.startsWithReceiver (.user owner name isStatic) args &&
      cx.receiverOpensWithMinusZero receiver) := by
  unfold Context.userCall at hc
  unfold Context.startsWithReceiver
  cases ht : cx.target with
  | actionScript =>
      simp only [ht] at hc
      obtain ⟨qualifier, printed, -, rfl, hqualifier⟩ := ActionScript.userCall_eq_ok hc
      cases receiver with
      | some obj =>
          obtain ⟨base, hbase, rfl⟩ := hqualifier
          rw [List.append_assoc]
          exact (opens_base (h obj rfl) hbase).append _
      | none =>
          simp only [Context.receiverOpensWithMinusZero, Bool.and_false]
          by_cases hstatic : isStatic = true
          · rw [if_pos hstatic] at hqualifier
            exact (opens_classPrefix (cx.target.localName name) hqualifier).append_cons printed
          · rw [if_neg hstatic] at hqualifier
            rw [show qualifier = [] from hqualifier]
            exact Code.opens_cons rfl _
  | cFamily d =>
      simp only [ht] at hc
      obtain ⟨c, self, rest, -, -, -, rfl⟩ := CFamily.userCall_eq_ok hc
      exact Code.opens_cons rfl _

omit h in
theorem ActionScript.opens_method {obj : Expr} {m : BuiltinMethod} (ht : cx.target = .actionScript)
    (h : ∀ code, cx.code obj = .ok code → .postfixed ≤ cx.target.priority obj →
      code.Opens (cx.opensWithMinusZero obj))
    (hc : method cx (cx.operand obj) m (args.map cx.operand) = .ok code) :
    code.Opens (cx.startsWithReceiver (.builtin m) args && cx.opensWithMinusZero obj) := by
  unfold Context.startsWithReceiver
  simp only [ht]
  unfold method at hc
  split at hc
  case h_1 =>
    obtain ⟨left, -, hc⟩ := Result.bind_eq_ok.mp hc
    obtain ⟨factor, -, hc⟩ := Result.bind_eq_ok.mp hc
    obtain ⟨divisor, -, hc⟩ := Result.bind_eq_ok.mp hc
    obtain rfl := Except.ok.inj hc
    exact Code.opens_cons rfl _
  case h_2 =>
    obtain ⟨base, hbase, hc⟩ := Result.bind_eq_ok.mp hc
    obtain ⟨position, -, hc⟩ := Result.bind_eq_ok.mp hc
    obtain rfl := Except.ok.inj hc
    rw [List.append_assoc]
    exact (opens_base h hbase).append _
  case h_3 first second hargs =>
    obtain ⟨start, rest, rfl, rfl, -⟩ := List.map_eq_cons_iff.mp hargs
    unfold substring at hc
    change (if start.hasSideEffect = true then _ else _) = _ at hc
    split_ifs at hc with hside
    · obtain ⟨printed, -, hc⟩ := Result.bind_eq_ok.mp hc
      obtain rfl := Except.ok.inj hc
      simp only [List.head?_cons, Option.any_some, hside, Bool.not_true, Bool.false_and]
      exact Code.opens_cons rfl _
    · obtain ⟨base, hbase, hc⟩ := Result.bind_eq_ok.mp hc
      obtain ⟨printed, -, hc⟩ := Result.bind_eq_ok.mp hc
      obtain ⟨last, -, hc⟩ := Result.bind_eq_ok.mp hc
      obtain rfl := Except.ok.inj hc
      simpa [hside] using (opens_base h hbase).append _
  case h_4 =>
    obtain ⟨printed, -, hc⟩ := Result.bind_eq_ok.mp hc
    obtain rfl := Except.ok.inj hc
    exact Code.opens_cons rfl _
  case h_5 =>
    obtain ⟨printed, -, hc⟩ := Result.bind_eq_ok.mp hc
    obtain rfl := Except.ok.inj hc
    exact Code.opens_cons rfl _
  case h_6 =>
    obtain ⟨printed, -, hc⟩ := Result.bind_eq_ok.mp hc
    obtain rfl := Except.ok.inj hc
    exact Code.opens_cons rfl _
  case h_7 => simp [Context.unsupported] at hc

theorem ActionScript.opens_builtinCall {m : BuiltinMethod} (ht : cx.target = .actionScript)
    (hc : builtinCall cx (receiver.map cx.operand) m (args.map cx.operand) = .ok code) :
    code.Opens
      (cx.startsWithReceiver (.builtin m) args && cx.receiverOpensWithMinusZero receiver) := by
  unfold builtinCall at hc
  cases receiver with
  | some obj =>
      have hmethod : method cx (cx.operand obj) m (args.map cx.operand) = .ok code := by
        cases m with
        | consoleWrite => simp [Context.unmappedMethod] at hc
        | _ => exact hc
      exact opens_method ht (h obj rfl) hmethod
  | none =>
      simp only [Context.receiverOpensWithMinusZero, Bool.and_false]
      cases m with
      | consoleWriteLine =>
          obtain ⟨shown, rfl⟩ : ∃ shown, code = .word "trace" :: Code.parenthesized shown := by
            cases args with
            | nil => exact ⟨_, (Except.ok.inj hc).symm⟩
            | cons arg rest =>
                obtain ⟨shown, -, hc⟩ := Result.bind_eq_ok.mp hc
                exact ⟨shown, (Except.ok.inj hc).symm⟩
          exact Code.opens_cons rfl _
      | mathAbs | mathSqrt =>
          obtain ⟨printed, -, hc⟩ := Result.bind_eq_ok.mp hc
          obtain rfl := Except.ok.inj hc
          exact Code.opens_cons rfl _
      | consoleWrite => simp [Context.unmappedMethod] at hc
      | _ => simp [Context.unsupported] at hc

omit h in
theorem CFamily.opens_arrayMethod {d : Dialect} {array : Operand} {m : BuiltinMethod}
    {args : List Operand} (hc : arrayMethod cx d array m args = .ok code) : code.Opens false := by
  unfold arrayMethod at hc
  split at hc
  case h_1 =>
    obtain ⟨destination, -, hc⟩ := Result.bind_eq_ok.mp hc
    obtain ⟨source, -, hc⟩ := Result.bind_eq_ok.mp hc
    obtain ⟨count, -, hc⟩ := Result.bind_eq_ok.mp hc
    obtain ⟨size, -, hc⟩ := Result.bind_eq_ok.mp hc
    obtain rfl := Except.ok.inj hc
    exact Code.opens_cons rfl _
  case h_2 =>
    split at hc
    · obtain ⟨target, -, hc⟩ := Result.bind_eq_ok.mp hc
      obtain ⟨size, -, hc⟩ := Result.bind_eq_ok.mp hc
      obtain rfl := Except.ok.inj hc
      exact Code.opens_cons rfl _
    · simp [Context.unsupported] at hc
  case h_3 => simp [Context.unmappedMethod] at hc

theorem CFamily.opens_builtinCall {d : Dialect} {m : BuiltinMethod} (ht : cx.target = .cFamily d)
    (hm : m ≠ .mulDiv)
    (hc : builtinCall cx d (receiver.map cx.operand) m (args.map cx.operand) = .ok code) :
    code.Opens
      (cx.startsWithReceiver (.builtin m) args && cx.receiverOpensWithMinusZero receiver) := by
  unfold Context.startsWithReceiver
  simp only [ht]
  cases receiver with
  | some obj =>
      cases m with
      | mulDiv => exact absurd rfl hm
      | charAt =>
          rcases args with _ | ⟨position, _ | ⟨second, rest⟩⟩
          · simp [builtinCall, Context.unsupported] at hc
          · obtain ⟨base, hbase, hc⟩ := Result.bind_eq_ok.mp hc
            obtain ⟨inner, -, hc⟩ := Result.bind_eq_ok.mp hc
            obtain rfl := Except.ok.inj hc
            rw [List.append_assoc]
            exact (opens_base (h obj rfl) hbase).append _
          · simp [builtinCall, Context.unsupported] at hc
      | arrayCopyTo | arrayClear => exact opens_arrayMethod hc
      | substring | arrayToString => simp [builtinCall, Context.unmappedMethod] at hc
      | _ => simp [builtinCall, Context.unsupported] at hc
  | none =>
      simp only [Context.receiverOpensWithMinusZero, Bool.and_false]
      cases m with
      | mathAbs =>
          rcases args with _ | ⟨value, _ | ⟨second, rest⟩⟩
          · simp [builtinCall, Context.unsupported] at hc
          · obtain ⟨printed, -, hc⟩ := Result.bind_eq_ok.mp hc
            obtain rfl := Except.ok.inj hc
            split_ifs <;> exact Code.opens_cons rfl _
          · simp [builtinCall, Context.unsupported] at hc
      | mathSqrt =>
          rcases args with _ | ⟨value, _ | ⟨second, rest⟩⟩
          · simp [builtinCall, Context.unsupported] at hc
          · obtain ⟨printed, -, hc⟩ := Result.bind_eq_ok.mp hc
            obtain rfl := Except.ok.inj hc
            exact Code.opens_cons rfl _
          · simp [builtinCall, Context.unsupported] at hc
      | substring | arrayToString => simp [builtinCall, Context.unmappedMethod] at hc
      | _ => simp [builtinCall, Context.unsupported] at hc

omit h in
theorem CFamily.opens_printCall {d : Dialect} {obj : Option Operand} {m : BuiltinMethod}
    {lineEnd : String} {shown : List Shown}
    (hc : printCall cx d obj m lineEnd shown = .ok code) : code.Opens false := by
  have hprintf : ∀ {format values}, printfCall d format values = .ok code → code.Opens false := by
    intro format values hc
    obtain ⟨rest, -, hc⟩ := Result.bind_eq_ok.mp hc
    obtain rfl := Except.ok.inj hc
    exact Code.opens_cons rfl _
  cases obj with
  | some obj => simp [printCall, Context.unsupported] at hc
  | none =>
      simp only [printCall] at hc
      unfold print at hc
      split at hc
      · exact hprintf hc
      · obtain ⟨formats, -, hc⟩ := Result.bind_eq_ok.mp hc
        exact hprintf hc
      · split at hc
        · exact hprintf hc
        · obtain ⟨format, -, hc⟩ := Result.bind_eq_ok.mp hc
          exact hprintf hc
      · simp [Context.unsupported] at hc

theorem opens_builtinCall {m : BuiltinMethod} {ty : Ty}
    (hc : cx.code (.call receiver (.builtin m) args ty) = .ok code)
    (hprio : .postfixed ≤ cx.target.priority (.call receiver (.builtin m) args ty)) :
    code.Opens
      (cx.startsWithReceiver (.builtin m) args && cx.receiverOpensWithMinusZero receiver) := by
  rw [code_builtinCall] at hc
  cases ht : cx.target with
  | actionScript =>
      simp only [ht] at hc
      exact ActionScript.opens_builtinCall h ht hc
  | cFamily d =>
      simp only [ht] at hc
      split_ifs at hc with hwrite hwriteLine
      · subst hwrite
        simpa [Context.startsWithReceiver, ht] using CFamily.opens_printCall hc
      · subst hwriteLine
        simpa [Context.startsWithReceiver, ht] using CFamily.opens_printCall hc
      · refine CFamily.opens_builtinCall h ht ?_ hc
        rintro rfl
        rw [ht] at hprio
        exact absurd (show Priority.postfixed ≤ .prefixed from hprio) (by decide)

end Receivers

theorem opens_property {obj : Expr} {accessor : BuiltinProperty} {ty : Ty}
    (h : ∀ code, cx.code obj = .ok code → .postfixed ≤ cx.target.priority obj →
      code.Opens (cx.opensWithMinusZero obj))
    (hc : cx.code (.property obj accessor ty) = .ok code)
    (hprio : .postfixed ≤ cx.target.priority (.property obj accessor ty)) :
    code.Opens (cx.opensWithMinusZero (.property obj accessor ty)) := by
  rw [Context.code] at hc
  change cx.property accessor (cx.operand obj) = _ at hc
  unfold Context.property at hc
  cases ht : cx.target with
  | actionScript =>
      simp only [ht] at hc hprio
      cases accessor with
      | stringLength =>
          obtain ⟨base, hbase, hc⟩ := Result.bind_eq_ok.mp hc
          obtain rfl := Except.ok.inj hc
          simpa [Context.opensWithMinusZero, ht] using (opens_base h hbase).append _
      | signExtendByte => exact absurd (show Priority.postfixed ≤ .add from hprio) (by decide)
      | lowByte => exact absurd (show Priority.postfixed ≤ .and from hprio) (by decide)
  | cFamily d =>
      rw [ht] at hprio
      exact absurd (show Priority.postfixed ≤ .prefixed from hprio) (by decide)

theorem opens_code (hc : cx.code e = .ok code) (hprio : .postfixed ≤ cx.target.priority e) :
    code.Opens (cx.opensWithMinusZero e) := by
  induction e using Expr.inductOn generalizing code with
  | h e ih =>
  cases e with
  | literal value ty =>
      refine opens_literal hc (by_contra fun hvalue => ?_)
      have hprio' : cx.target.priority (.literal value ty) = .prefixed := by
        cases cx.target <;> simp_all [Target.priority, Expr.priority]
      rw [hprio'] at hprio
      exact absurd hprio (by decide)
  | var name ty =>
      obtain rfl := Except.ok.inj hc
      exact Code.opens_cons rfl _
  | this ty =>
      obtain rfl := Except.ok.inj hc
      unfold Context.this
      cases cx.target <;> exact Code.opens_cons rfl _
  | const owner name ty => exact opens_const hc
  | enumValue id i ty => exact opens_enumValue hc
  | field obj name ty =>
      obtain ⟨base, rest, hbase, rfl⟩ : ∃ base rest,
          (cx.operand obj).atLeast .postfixed = .ok base ∧ code = base ++ rest := by
        rw [Context.code] at hc
        change cx.field (cx.operand obj) name = _ at hc
        unfold Context.field at hc
        cases ht : cx.target with
        | actionScript =>
            simp only [ht] at hc
            obtain ⟨base, hbase, hc⟩ := Result.bind_eq_ok.mp hc
            exact ⟨base, _, hbase, (Except.ok.inj hc).symm⟩
        | cFamily d =>
            simp only [ht] at hc
            obtain ⟨base, hbase, hc⟩ := Result.bind_eq_ok.mp hc
            exact ⟨base, _, hbase, (Except.ok.inj hc).symm⟩
      exact (opens_base (fun _ hobj => ih obj (by simp [Expr.children]) hobj) hbase).append rest
  | property obj accessor ty =>
      exact opens_property (fun _ hobj => ih obj (by simp [Expr.children]) hobj) hc hprio
  | call receiver callee args ty =>
      have hr : ∀ e ∈ receiver, ∀ code, cx.code e = .ok code → .postfixed ≤ cx.target.priority e →
          code.Opens (cx.opensWithMinusZero e) := by
        rintro e rfl code he hpriority
        exact ih e (by simp [Expr.children]) he hpriority
      cases callee with
      | user owner name isStatic =>
          rw [Context.code, Context.receiverOperand_eq, Context.operands_eq] at hc
          exact opens_userCall hr hc
      | builtin m => exact opens_builtinCall hr hc hprio
  | index array position ty =>
      rw [Context.code] at hc
      obtain ⟨base, hbase, hc⟩ := Result.bind_eq_ok.mp hc
      obtain ⟨inner, -, hc⟩ := Result.bind_eq_ok.mp hc
      obtain rfl := Except.ok.inj hc
      rw [List.append_assoc]
      exact (opens_base (fun _ harray => ih array (by simp [Expr.children]) harray) hbase).append _
  | unary op operand ty =>
      rw [priority_unary] at hprio
      split_ifs at hprio with hbehind
      · rw [Context.code] at hc
        change Context.unary op (cx.operand operand) = _ at hc
        rw [Context.unary, if_pos hbehind] at hc
        obtain ⟨base, hbase, hc⟩ := Result.bind_eq_ok.mp hc
        obtain rfl := Except.ok.inj hc
        simpa [Context.opensWithMinusZero, hbehind] using
          (opens_base (fun _ hbase => ih operand (by simp [Expr.children]) hbase) hbase).append _
      · exact absurd hprio (by decide)
  | binary left op right ty =>
      obtain ⟨ht, hquotient⟩ : cx.target = .actionScript ∧ op = .div ∧ ty.isInteger = true := by
        have hop : ¬Priority.postfixed ≤ op.priority := by cases op <;> decide
        have hmul : ¬Priority.postfixed ≤ .mul := by decide
        cases ht : cx.target with
        | actionScript =>
            refine ⟨rfl, by_contra fun hnot => ?_⟩
            rw [ht] at hprio
            cases op <;> simp_all [Target.priority, Expr.priority]
        | cFamily d =>
            rw [ht] at hprio
            exact absurd hprio hop
      rw [Context.code] at hc
      simp only [Context.binary, ht, ActionScript.binary, if_pos hquotient] at hc
      obtain ⟨quotient, -, hc⟩ := Result.bind_eq_ok.mp hc
      obtain rfl := Except.ok.inj hc
      exact Code.opens_cons rfl _
  | select cond onTrue onFalse ty =>
      have hselect : cx.target.priority (.select cond onTrue onFalse ty) = .select := by
        cases cx.target <;> rfl
      rw [hselect] at hprio
      exact absurd hprio (by decide)
  | interpolated parts suffix ty =>
      cases ht : cx.target with
      | actionScript =>
          rw [ht] at hprio
          exact absurd (show Priority.postfixed ≤ .add from hprio) (by decide)
      | cFamily d => simp [Context.code, ht, Context.unsupported] at hc
  | resource name ty =>
      rw [Context.code] at hc
      unfold Context.resource at hc
      cases ht : cx.target with
      | actionScript => simp [ht, Context.unsupported] at hc
      | cFamily d =>
          simp only [ht, CFamily.resource] at hc
          split_ifs at hc
          · obtain rfl := Except.ok.inj hc
            exact Code.opens_cons rfl _
          · simp [Context.unsupported] at hc

end Emitter
