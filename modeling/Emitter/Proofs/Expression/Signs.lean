import Emitter.Proofs.Expression.Openings
import Emitter.Proofs.Reading.Loose

/-!
# Prefix operators in front of their operands

The printer puts parentheses around an operand that it sees to start with a sign. It does not see
the sign of a floating-point literal, nor that of `-0.0` at the left end of a selection or a call. A
minus in front of one of these is read as a decrement; every other prefix operator is a token of its
own.
-/

namespace Emitter

open Layout Number Program Reading

variable {cx : Context} {e : Expr} {code : Code}

/-- The printed form starts with a sign that the printer does not see. -/
def Context.opensWithSign (cx : Context) (e : Expr) : Bool :=
  cx.hidesSign e || cx.opensWithMinusZero e

theorem opensWithMinusZero_of_isMinusZero (h : cx.isMinusZero e = true) :
    cx.opensWithMinusZero e = true := by
  cases e with
  | literal | const => simpa [Context.opensWithMinusZero] using h
  | _ => simp [Context.isMinusZero, Context.number?] at h

theorem prefixed_le_priority (h : cx.opensWithSign e = true) :
    .prefixed ≤ cx.target.priority e := by
  have hle : Priority.prefixed.rank ≤ Priority.postfixed.rank := by decide
  have hzero : cx.opensWithMinusZero e = true → .prefixed ≤ cx.target.priority e := fun h =>
    hle.trans (postfixed_le_priority h)
  simp only [Context.opensWithSign, Bool.or_eq_true] at h
  rcases h with h | h
  · cases hminus : cx.isMinusZero e with
    | true => exact hzero (opensWithMinusZero_of_isMinusZero hminus)
    | false =>
        rw [Printed.priority_of_hidesSign h hminus]
        decide
  · exact hzero h

theorem opensWithSign_of_startsWithSign (h : (cx.operand e).startsWithSign = true) :
    cx.opensWithSign e = false := by
  have hnot : cx.opensWithMinusZero e = false ∧ cx.hidesSign e = false := by
    cases e with
    | literal value ty =>
        cases value with
        | int n => exact ⟨rfl, rfl⟩
        | _ => simp [Context.operand, Operand.startsWithSign] at h
    | unary op operand ty =>
        have hop : op.isPostfix = false := by
          cases op <;> simp_all [Context.operand, Operand.startsWithSign, UnaryOp.isPostfix]
        simp [Context.opensWithMinusZero, Context.hidesSign, Context.isMinusZero, Context.number?,
          hop]
    | _ => simp [Context.operand, Operand.startsWithSign] at h
  simp [Context.opensWithSign, hnot]

theorem CFamily.opens_property {d : Dialect} {accessor : BuiltinProperty} {obj : Operand}
    (hc : property d accessor obj = .ok code) : code.Opens false := by
  cases accessor with
  | stringLength =>
      cases d <;> obtain ⟨printed, -, hc⟩ := Result.bind_eq_ok.mp hc <;>
        obtain rfl := Except.ok.inj hc <;> exact Code.opens_cons rfl _
  | signExtendByte | lowByte =>
      obtain ⟨inner, -, hc⟩ := Result.bind_eq_ok.mp hc
      obtain rfl := Except.ok.inj hc
      exact Code.opens_cons rfl _

theorem CFamily.opens_mulDiv {d : Dialect} {receiver : Option Operand} {args : List Operand}
    (hc : builtinCall cx d receiver .mulDiv args = .ok code) : code.Opens false := by
  unfold builtinCall at hc
  split at hc
  case h_1 =>
    obtain ⟨product, -, hc⟩ := Result.bind_eq_ok.mp hc
    obtain ⟨factor, -, hc⟩ := Result.bind_eq_ok.mp hc
    obtain ⟨divisor, -, hc⟩ := Result.bind_eq_ok.mp hc
    obtain rfl := Except.ok.inj hc
    exact Code.opens_cons rfl _
  all_goals simp_all [Context.unsupported]

/-- What binds as tightly as a prefix operator shows its sign as a floating-point literal or to the
printer. -/
theorem opens_prefixed (hprio : cx.target.priority e = .prefixed)
    (hsign : (cx.operand e).startsWithSign = false) (hc : cx.code e = .ok code) :
    code.Opens (cx.opensWithSign e) := by
  cases e with
  | literal value ty =>
      have hbelow : value.isBelowZero = true := by
        cases hvalue : value.isBelowZero with
        | true => rfl
        | false =>
            cases ht : cx.target <;> simp [ht, Target.priority, Expr.priority, hvalue] at hprio
      cases value with
      | int n =>
          have hn : n < 0 := by simpa [Literal.isBelowZero] using hbelow
          simp [Context.operand, Operand.startsWithSign, hn] at hsign
      | float x =>
          have hx : x.isBelowZero = true := hbelow
          simpa [Context.opensWithSign, Context.hidesSign, hx] using
            opens_float_of_isBelowZero hx hc
      | _ => simp [Literal.isBelowZero] at hbelow
  | unary op operand ty =>
      have hbehind : op.isPostfix = false := by
        rw [priority_unary] at hprio
        simpa using hprio
      have hop : op = .not ∨ op = .bitNot := by
        cases op <;> simp_all [Context.operand, Operand.startsWithSign, UnaryOp.isPostfix]
      rw [Context.code] at hc
      change Context.unary op (cx.operand operand) = _ at hc
      rw [Context.unary, if_neg (by simp [hbehind])] at hc
      obtain ⟨inner, -, rfl⟩ := Operand.prefixed_eq_ok hc
      simp only [Context.opensWithSign, Context.hidesSign, Context.isMinusZero, Context.number?,
        Context.opensWithMinusZero, hbehind, Bool.false_and, Bool.or_self]
      rcases hop with rfl | rfl <;> exact Code.opens_cons rfl _
  | property obj accessor ty =>
      cases ht : cx.target with
      | actionScript =>
          cases accessor <;> simp [ht, Target.priority, Expr.priority] at hprio
      | cFamily d =>
          have hopens : cx.opensWithSign (.property obj accessor ty) = false := by
            cases accessor <;>
              simp [Context.opensWithSign, Context.hidesSign, Context.isMinusZero,
                Context.number?, Context.opensWithMinusZero, ht]
          rw [hopens]
          rw [Context.code] at hc
          simp only [Context.property, ht] at hc
          exact CFamily.opens_property hc
  | call receiver callee args ty =>
      cases ht : cx.target with
      | actionScript => simp [ht, Target.priority, Expr.priority] at hprio
      | cFamily d =>
          obtain rfl : callee = .builtin .mulDiv := by
            cases callee with
            | user => simp [ht, Target.priority, Expr.priority] at hprio
            | builtin m => cases m <;> simp [ht, Target.priority, Expr.priority] at hprio ⊢
          have hopens : cx.opensWithSign (.call receiver (.builtin .mulDiv) args ty) = false := by
            simp [Context.opensWithSign, Context.hidesSign, Context.isMinusZero, Context.number?,
              Context.opensWithMinusZero, Context.startsWithReceiver]
          rw [hopens]
          rw [code_builtinCall] at hc
          simp only [ht] at hc
          exact CFamily.opens_mulDiv hc
  | binary left op right ty =>
      have hop : op.priority ≠ .prefixed := by cases op <;> decide
      cases ht : cx.target with
      | actionScript =>
          rw [ht] at hprio
          cases op <;> simp [Target.priority, Expr.priority, BinaryOp.priority] at hprio
          split_ifs at hprio
      | cFamily d =>
          rw [ht] at hprio
          exact absurd hprio hop
  | _ => cases ht : cx.target <;> simp [ht, Target.priority, Expr.priority] at hprio

/-- The operand of a prefix operator starts with a minus exactly if it hides its sign. -/
theorem opens_operand {inner : Code}
    (hc : (if (cx.operand e).startsWithSign then (cx.operand e).parenthesized
      else (cx.operand e).atLeast .prefixed) = .ok inner) :
    inner.Opens (cx.opensWithSign e) := by
  split_ifs at hc with hsign
  · obtain ⟨code, -, rfl⟩ := Result.map_eq_ok.mp hc
    rw [opensWithSign_of_startsWithSign hsign]
    exact Code.opens_cons rfl _
  · unfold Operand.atLeast at hc
    split_ifs at hc with hprio
    · obtain ⟨code, -, rfl⟩ := Result.map_eq_ok.mp hc
      cases hopens : cx.opensWithSign e with
      | false => exact Code.opens_cons rfl _
      | true => exact absurd hprio (Nat.not_lt.mpr (prefixed_le_priority hopens))
    · by_cases hprefixed : cx.target.priority e = .prefixed
      · exact opens_prefixed hprefixed (by simpa using hsign) hc
      · have hpostfixed : .postfixed ≤ cx.target.priority e := by
          have hall : ∀ p : Priority, ¬p < .prefixed → p ≠ .prefixed → .postfixed ≤ p := by
            intro p
            cases p <;> decide
          exact hall _ hprio hprefixed
        have hopens : cx.opensWithSign e = cx.opensWithMinusZero e := by
          cases hzero : cx.isMinusZero e with
          | true => simp [Context.opensWithSign, opensWithMinusZero_of_isMinusZero hzero]
          | false =>
              have hhides : cx.hidesSign e = false := by
                rw [← Bool.not_eq_true]
                exact fun h => hprefixed (Printed.priority_of_hidesSign h hzero)
              simp [Context.opensWithSign, hhides]
        exact hopens ▸ opens_code hc hpostfixed

theorem Printed.prefixOperand {strict : Bool} {inner : Code} (h : Printed cx strict e)
    (hc : (if (cx.operand e).startsWithSign then (cx.operand e).parenthesized
      else (cx.operand e).atLeast .prefixed) = .ok inner) :
    Piece cx.target strict 11 inner (cx.tree e) := by
  split_ifs at hc with hsign
  · refine (h.parenthesized hc ?_).mono (by decide)
    simp [Printed.priority_of_startsWithSign hsign]
  · exact h.operand .prefixed (by decide) hc

/-- The first token of code that starts with an operator and a lexeme apart from it. -/
theorem head?_scan_apart {s : String} {l : Lexeme} {rest : Code} {ts : List Token}
    (hs : (Lexeme.symbol s).Spelled) (hl : l.Spelled) (hapart : (Lexeme.symbol s).Apart l)
    (hts : scan (Code.text (.symbol s :: l :: rest)) = some ts) : ts.head? = some (.symbol s) := by
  obtain ⟨c, cs, htext⟩ := Lexeme.text_eq_cons hl
  have hextend : ∀ d ∈ (Code.text (l :: rest)).toList.head?,
      (Lexeme.symbol s).pending.extend d = none := by
    intro d hd
    exact hapart d (by simpa [Code.toList_text, htext] using hd)
  have hsplit : (Code.text (.symbol s :: l :: rest)).toList =
      (Lexeme.symbol s).text.toList ++ (Code.text (l :: rest)).toList := by
    simp [Code.toList_text]
  rw [scan, hsplit, Lexeme.scanFrom_text hs,
    scanFrom_settle (Lexeme.settle_pending _) hextend] at hts
  obtain ⟨us, -, rfl⟩ := Option.map_eq_some_iff.mp hts
  rfl

/-- Two minus signs are a decrement whatever follows. -/
theorem head?_scan_minus {l : Lexeme} {rest : Code} {ts : List Token} (hl : l.isMinus = true)
    (hts : scan (Code.text (.symbol "-" :: l :: rest)) = some ts) :
    ts.head? = some (.symbol "--") := by
  have hstop : ∀ c, (Lexeme.symbol "--").pending.extend c = none := by
    have hlonger : ∀ op ∈ operators, op.dropLast ≠ ['-', '-'] := by decide
    intro c
    have hop : ['-', '-', c] ∉ operators := fun hmem => hlonger _ hmem rfl
    simp [Lexeme.pending, Mode.extend, hop]
  have hspelled : (Lexeme.symbol "--").Spelled := by
    change "--".toList ∈ operators
    decide
  obtain ⟨more, hsplit⟩ : ∃ more, (Code.text (.symbol "-" :: l :: rest)).toList =
      (Lexeme.symbol "--").text.toList ++ more := by
    simp only [Lexeme.isMinus, decide_eq_true_eq] at hl
    rcases hl with rfl | rfl <;> simp [Code.toList_text, Lexeme.text]
  rw [scan, hsplit, Lexeme.scanFrom_text hspelled,
    scanFrom_settle (Lexeme.settle_pending _) fun c _ => hstop c] at hts
  obtain ⟨us, -, rfl⟩ := Option.map_eq_some_iff.mp hts
  rfl

/-- The first token of a prefix operation is its operator, except that a minus in front of a hidden
sign is read as a decrement. -/
theorem head?_scan_unary (hnamed : cx.program.Named cx.target) {op : UnaryOp} {operand : Expr}
    {ty : Ty} (hop : op.isPostfix = false) (hname : operand.everywhere Expr.isNamed = true)
    (hc : cx.code (.unary op operand ty) = .ok code) :
    ∃ ts, scan code.text = some ts ∧ ts.head? = some
      (.symbol (if op = .neg ∧ cx.opensWithSign operand = true then "--" else op.text)) := by
  have hunary : (Expr.unary op operand ty).everywhere Expr.isNamed = true :=
    Expr.everywhere_iff.mpr ⟨rfl, by simpa [Expr.children] using hname⟩
  have htidy : Code.Tidy false code :=
    ((@sound cx false hnamed _ hunary Bool.noConfusion).printed code hc).piece.toTidy
  obtain ⟨ts, hts, -⟩ := htidy.exists_scans
  have hscan : scan code.text = some ts := hts.scanFrom_eq
  refine ⟨ts, hscan, ?_⟩
  rw [Context.code] at hc
  change Context.unary op (cx.operand operand) = _ at hc
  rw [Context.unary, if_neg (by simp [hop])] at hc
  obtain ⟨inner, hinner, rfl⟩ := Operand.prefixed_eq_ok hc
  obtain ⟨l, hl, hminus⟩ := opens_operand hinner
  have hbegins : l.Begins :=
    ((@sound cx false hnamed operand hname Bool.noConfusion).printed.prefixOperand
      hinner).begins_of_mem hl
  obtain ⟨rest, rfl⟩ : ∃ rest, inner = l :: rest := by
    cases inner with
    | nil => simp at hl
    | cons first rest => exact ⟨rest, by simpa using hl⟩
  have hspelled : l.Spelled := htidy.spelled l (by simp)
  by_cases hsign : op = .neg ∧ cx.opensWithSign operand = true
  · rw [if_pos hsign]
    obtain ⟨rfl, hsign⟩ := hsign
    exact head?_scan_minus (hminus.trans hsign) hscan
  · rw [if_neg hsign]
    have htext : op.text ∈ ["-", "!", "~", "++", "--", "&"] ∧ op.text ≠ "&" := by
      cases op <;> decide
    refine head?_scan_apart (htidy.spelled _ (by simp)) hspelled
      (hbegins.apart hspelled htext.1 (fun hneg => ?_) fun hand => absurd hand htext.2) hscan
    have hop : op = .neg := by cases op <;> simp_all [UnaryOp.text, UnaryOp.isPostfix]
    have hnone : l.isMinus = false := by
      rw [hminus]
      simpa [hop] using hsign
    simpa [Lexeme.isMinus] using hnone

/-- **Prefix operators.** A printed prefix operation is cut into tokens of which the first is its
operator, exactly unless it is a minus in front of a sign that the printer does not see. -/
theorem unary_starts_with_operator_iff (hnamed : cx.program.Named cx.target) {op : UnaryOp}
    {operand : Expr} {ty : Ty} (hop : op.isPostfix = false)
    (hname : operand.everywhere Expr.isNamed = true)
    (hc : cx.code (.unary op operand ty) = .ok code) :
    ∃ ts, scan code.text = some ts ∧
      (ts.head? = some (.symbol op.text) ↔ ¬(op = .neg ∧ cx.opensWithSign operand = true)) := by
  obtain ⟨ts, hts, hhead⟩ := head?_scan_unary hnamed hop hname hc
  refine ⟨ts, hts, ?_⟩
  rw [hhead]
  split_ifs with hsign
  · have htext : UnaryOp.neg.text ≠ "--" := by decide
    simp [hsign, htext.symm]
  · simp [hsign]

/-- A minus in front of a decrement, which gets parentheses. -/
theorem unary_starts_with_operator_decrement :
    let cx : Context := ⟨.empty, .actionScript, none⟩
    let e : Expr := .unary .neg (.unary .preDec (.var "i" (.int .int)) (.int .int)) (.int .int)
    ∃ code ts, cx.code e = .ok code ∧ code.text = "-(--i)" ∧ scan code.text = some ts ∧
      ts.head? = some (.symbol "-") := by
  intro cx e
  have hnamed : cx.program.Named cx.target :=
    ⟨by simp [cx, Program.empty], by simp [cx, Program.empty]⟩
  have hcode : cx.code e = .ok _ := rfl
  obtain ⟨ts, hts, hiff⟩ :=
    unary_starts_with_operator_iff hnamed (by decide) (by decide) hcode
  exact ⟨_, ts, hcode, by decide, hts, hiff.mpr (by decide)⟩

/-- A minus in front of a negative literal. -/
theorem unary_starts_with_decrement :
    let cx : Context := ⟨.empty, .cFamily .standard, none⟩
    let half : Expr := .literal (.float ⟨0xBFE0000000000000⟩) (.float .double)
    ∃ code, cx.code (.unary .neg half (.float .double)) = .ok code ∧ code.text = "--0.5" ∧
      scan code.text = some [.symbol "--", .number "0.5"] := by
  intro cx half
  have hcode : cx.code (.unary .neg half (.float .double)) =
      .ok [.symbol "-", .symbol "-", .number "0.5"] := by decide +kernel
  exact ⟨_, hcode, by decide, by decide⟩

end Emitter
