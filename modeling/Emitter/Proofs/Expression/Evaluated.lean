import Emitter.Proofs.Expression.Ordered
import Emitter.Proofs.Expression.Reached
import Emitter.Proofs.Names.Printed
import Emitter.Proofs.Reading.Evaluated

/-!
# What C expressions evaluate

A printed expression evaluates each effect that C reaches once. Where an operand is printed twice,
it is printed once under a `sizeof`.
-/

namespace Emitter

open Layout Number Program Reading

/-- What the operation is called in C. Two of the built-in methods with effects work on arrays, the
others print. -/
def Operation.functionInC (p : Program) : Operation → String
  | call (.user owner name _) => CFamily.functionName (p.className owner) name
  | call (.builtin .arrayCopyTo) => "memmove"
  | call (.builtin .arrayClear) => "memset"
  | change op => op.text
  | _ => "printf"

/-- The effects of the expression that C reaches, as they are called there. -/
def Context.reached (cx : Context) (e : Expr) : Multiset String :=
  e.reached.map (Operation.functionInC cx.program)

/-- The printed form of the operand, if it has one, evaluates the effects. -/
def Operand.Evaluates (o : Operand) (effects : Multiset String) : Prop :=
  ∀ code, o.code = .ok code → Reading.Evaluates code.tokens effects

namespace Operand

variable {o left right : Operand} {effects more : Multiset String} {code : Code}

theorem Evaluates.parenthesized (h : o.Evaluates effects) (hc : o.parenthesized = .ok code) :
    Concludes code.tokens effects := by
  obtain ⟨inner, hinner, rfl⟩ := Result.map_eq_ok.mp hc
  simpa [Code.parenthesized] using (h inner hinner).parenthesized

theorem Evaluates.atLeast {least : Priority} (h : o.Evaluates effects)
    (hc : o.atLeast least = .ok code) : Reading.Evaluates code.tokens effects := by
  unfold Operand.atLeast at hc
  split_ifs at hc
  · exact (h.parenthesized hc).evaluates
  · exact h code hc

theorem Evaluates.above {bound : Priority} (h : o.Evaluates effects)
    (hc : o.above bound = .ok code) : Reading.Evaluates code.tokens effects := by
  unfold Operand.above at hc
  split_ifs at hc
  · exact (h.parenthesized hc).evaluates
  · exact h code hc

theorem Evaluates.infixed {op : BinaryOp} (h : left.Evaluates effects) (h' : right.Evaluates more)
    (hc : left.infixed op right = .ok code) : Reading.Evaluates code.tokens (effects + more) := by
  obtain ⟨first, hfirst, hc⟩ := Result.bind_eq_ok.mp hc
  obtain ⟨second, hsecond, hc⟩ := Result.bind_eq_ok.mp hc
  obtain rfl := Except.ok.inj hc
  simpa [Code.operator] using
    (h.atLeast hfirst).infixed (h'.above hsecond) (plain_binaryOp op).1 (plain_binaryOp op).2

theorem Evaluates.indexed (h : left.Evaluates effects) (h' : right.Evaluates more)
    (hc : left.indexed right = .ok code) : Reading.Evaluates code.tokens (effects + more) := by
  obtain ⟨array, harray, hc⟩ := Result.bind_eq_ok.mp hc
  obtain ⟨position, hposition, hc⟩ := Result.bind_eq_ok.mp hc
  obtain rfl := Except.ok.inj hc
  have hopened :=
    (h.atLeast harray).infixed (h' position hposition) (s := "[") (by decide) (by decide)
  have hplain : changes "]" = [] := by decide
  simpa [hplain] using (hopened.symbol (s := "]") (by decide)).evaluates

theorem Evaluates.selected {third : Multiset String} {cond onTrue onFalse : Operand}
    (h : cond.Evaluates effects) (h' : onTrue.Evaluates more) (h'' : onFalse.Evaluates third)
    (hc : cond.selected onTrue onFalse = .ok code) :
    Reading.Evaluates code.tokens (effects + more + third) := by
  obtain ⟨c, hcond, hc⟩ := Result.bind_eq_ok.mp hc
  obtain ⟨t, htrue, hc⟩ := Result.bind_eq_ok.mp hc
  obtain ⟨f, hfalse, hc⟩ := Result.bind_eq_ok.mp hc
  obtain rfl := Except.ok.inj hc
  have hbranches :=
    (h'.atLeast htrue).infixed (h''.atLeast hfalse) (s := ":") (by decide) (by decide)
  simpa [Code.operator, add_assoc] using
    (h.atLeast hcond).infixed hbranches (s := "?") (by decide) (by decide)

theorem Evaluates.unary {op : UnaryOp} (h : o.Evaluates effects)
    (hc : Context.unary op o = .ok code) :
    Reading.Evaluates code.tokens ((if op.mutates then {op.text} else 0) + effects) := by
  obtain ⟨hsymbol, hchanges⟩ := plain_prefixed op
  have hchanges : (changes op.text : Multiset String) = if op.mutates then {op.text} else 0 := by
    rw [hchanges]
    split_ifs <;> rfl
  unfold Context.unary at hc
  split_ifs at hc with hpost
  · obtain ⟨base, hbase, hc⟩ := Result.bind_eq_ok.mp hc
    obtain rfl := Except.ok.inj hc
    simpa [hchanges, add_comm] using ((h.atLeast hbase).symbol hsymbol).evaluates
  · obtain ⟨inner, hinner, rfl⟩ := Operand.prefixed_eq_ok hc
    have hinner : Reading.Evaluates inner.tokens effects := by
      split_ifs at hinner
      · exact (h.parenthesized hinner).evaluates
      · exact h.atLeast hinner
    simpa [hchanges] using (Concludes.symbol hsymbol).append_evaluates hinner

end Operand

/-- Pieces with commas between them evaluate what each of them does. -/
theorem evaluates_commaSeparated {pieces : List Code} {effectss : List (Multiset String)}
    (h : List.Forall₂ (fun piece effects => Reading.Evaluates piece.tokens effects) pieces
      effectss) : Reading.Evaluates (Code.commaSeparated pieces).tokens effectss.sum := by
  induction h with
  | nil => exact Concludes.nil.evaluates
  | @cons piece effects pieces effectss hpiece hpieces ih =>
      cases hpieces with
      | nil => simpa [Code.commaSeparated] using hpiece
      | cons hnext hrest =>
          simpa [Code.commaSeparated, Code.comma] using
            hpiece.infixed ih (s := ",") (by decide) (by decide)

/-- A call of a function. -/
theorem concludes_call (name : Lexeme) {text : String} (hname : name.Names text)
    (htext : text ≠ "sizeof") {pieces : List Code} {effectss : List (Multiset String)}
    (h : List.Forall₂ (fun piece effects => Reading.Evaluates piece.tokens effects) pieces
      effectss) :
    Concludes (Code.tokens (name :: Code.parenthesized (Code.commaSeparated pieces)))
      (callEffects (some text) + effectss.sum) := by
  have hcall := (evaluates_commaSeparated h).call text htext
  rcases hname with rfl | ⟨supplier, rfl⟩ <;> simpa [Code.parenthesized] using hcall

/-- Operands that are printed one by one. -/
theorem Operand.forall₂_pieces {print : Operand → Result Code} {args : List Operand}
    {effectss : List (Multiset String)} {pieces : List Code}
    (h : List.Forall₂ Operand.Evaluates args effectss) (hc : args.mapM print = .ok pieces)
    (hprint : ∀ {o effects code}, Operand.Evaluates o effects → print o = .ok code →
      Reading.Evaluates code.tokens effects) :
    List.Forall₂ (fun piece effects => Reading.Evaluates piece.tokens effects) pieces effectss := by
  have hall := Result.forall₂_of_mapM_eq_ok hc
  clear hc
  induction h generalizing pieces with
  | nil =>
      cases hall
      exact .nil
  | cons hfirst _ ih =>
      cases hall with
      | cons hpiece hpieces => exact .cons (hprint hfirst hpiece) (ih hpieces)

namespace Context

variable {cx : Context} {d : Dialect} {code : Code}

theorem evaluates_literal (ht : cx.target = .cFamily d) {value : Literal}
    (hc : cx.literal value = .ok code) : Reading.Evaluates code.tokens 0 := by
  cases value with
  | int n =>
      obtain rfl := Except.ok.inj hc
      unfold Code.integer
      split_ifs <;> exact .of_plain (by simp)
  | float x =>
      simp only [literal, float, ht] at hc
      split_ifs at hc
      · obtain rfl := Except.ok.inj hc
        unfold finiteFloat
        split_ifs <;> exact .of_plain (by simp)
      · simp [unsupported] at hc
  | bool b =>
      obtain rfl := Except.ok.inj hc
      simp only [truth, ht]
      exact .of_plain (by simp)
  | str s =>
      obtain rfl := Except.ok.inj hc
      exact .of_plain (by simp)
  | null =>
      obtain rfl := Except.ok.inj hc
      simp only [null, ht]
      exact .of_plain (by simp)

theorem evaluates_enumValue (ht : cx.target = .cFamily d) {id : EnumId} {index : UInt64}
    (hc : cx.enumValue id index = .ok code) : Reading.Evaluates code.tokens 0 := by
  obtain ⟨e, -, hc⟩ := Result.bind_eq_ok.mp hc
  split at hc
  · simp [unsupported] at hc
  · simp only [ht] at hc
    obtain rfl := Except.ok.inj hc
    exact .of_plain (by simp)

end Context

namespace CFamily

variable {cx : Context} {d : Dialect} {obj left right array : Operand} {args : List Operand}
  {effects more : Multiset String} {effectss : List (Multiset String)} {code : Code}

theorem evaluates_field {name : String} (h : obj.Evaluates effects)
    (hc : field cx obj name = .ok code) : Reading.Evaluates code.tokens effects := by
  obtain ⟨base, hbase, hc⟩ := Result.bind_eq_ok.mp hc
  obtain rfl := Except.ok.inj hc
  have hselected : ∀ s ∈ ["->", "."], Reading.Evaluates
      (base.tokens ++ [Token.symbol s, Token.word (cx.target.localName name)]) effects := by
    intro s hs
    have hplain : ∀ s ∈ ["->", "."], s ∉ ["(", ")"] ∧ changes s = [] := by decide
    simpa using (h.atLeast hbase).infixed (.word _) (hplain s hs).1 (hplain s hs).2
  split <;> simpa [Context.localWord] using hselected _ (by decide)

/-- The type in front is a bracketed word or several. -/
theorem evaluates_cast {type : Code} (htype : ∀ s, .symbol s ∉ type.tokens)
    (h : obj.Evaluates effects) (hc : cast type obj = .ok code) :
    Reading.Evaluates code.tokens effects := by
  obtain ⟨inner, hinner, hc⟩ := Result.bind_eq_ok.mp hc
  obtain rfl := Except.ok.inj hc
  have hplain : Reading.Evaluates type.tokens 0 := .of_plain fun s hs => absurd hs (htype s)
  simpa [Code.parenthesized] using hplain.parenthesized.append_evaluates (h.atLeast hinner)

theorem symbol_not_mem_intType (d : Dialect) (kind : IntKind) (s : String) :
    .symbol s ∉ Code.tokens [d.intType kind] := by
  cases d <;> cases kind <;> simp [Dialect.intType]

theorem evaluates_property {accessor : BuiltinProperty} (h : obj.Evaluates effects)
    (hc : property d accessor obj = .ok code) : Reading.Evaluates code.tokens effects := by
  cases accessor with
  | signExtendByte | lowByte => exact evaluates_cast (symbol_not_mem_intType d _) h hc
  | stringLength =>
      -- In either dialect the length is a call without an effect of its own.
      have hlength : ∀ {inner : Code}, obj.parenthesized = .ok inner →
          Reading.Concludes (.word "strlen" :: inner.tokens) effects := by
        intro inner hinner
        obtain ⟨value, hvalue, rfl⟩ := Result.map_eq_ok.mp hinner
        have hidle : callEffects (some "strlen") = 0 := callEffects_of_mem (by decide)
        simpa [Code.parenthesized, hidle] using (h value hvalue).call "strlen" (by decide)
      cases d with
      | standard =>
          obtain ⟨inner, hinner, hc⟩ := Result.bind_eq_ok.mp hc
          obtain rfl := Except.ok.inj hc
          simpa [Code.parenthesized] using
            (Reading.Evaluates.word "int").parenthesized.append_evaluates (hlength hinner).evaluates
      | openCL =>
          obtain ⟨inner, hinner, hc⟩ := Result.bind_eq_ok.mp hc
          obtain rfl := Except.ok.inj hc
          simpa using (hlength hinner).evaluates

theorem evaluates_stringEquality {negated : Bool} (h : left.Evaluates effects)
    (h' : right.Evaluates more) (hc : stringEquality d negated left right = .ok code) :
    Reading.Evaluates code.tokens (effects + more) := by
  obtain ⟨first, hfirst, hc⟩ := Result.bind_eq_ok.mp hc
  obtain ⟨second, hsecond, hc⟩ := Result.bind_eq_ok.mp hc
  have hcall (name : String) (supplier : Supplier) : name ∈ idleNames →
      Concludes (Code.tokens (.supplied name supplier ::
        Code.parenthesized (Code.commaSeparated [first, second]))) (effects + more) := by
    intro hidle
    simpa [callEffects_of_mem hidle] using concludes_call _ (.inr ⟨supplier, rfl⟩)
      (ne_sizeof_of_mem hidle) (.cons (h first hfirst) (.cons (h' second hsecond) .nil))
  cases d with
  | standard =>
      obtain rfl := Except.ok.inj hc
      have hcompared : ∀ s ∈ ["!=", "=="], s ∉ ["(", ")"] ∧ changes s = [] := by decide
      have hop := hcompared (if negated then "!=" else "==") (by split_ifs <;> decide)
      have hcall := hcall "strcmp" (.header .string) (by decide)
      simpa [Code.operator] using
        hcall.evaluates.infixed (Concludes.number "0").evaluates hop.1 hop.2
  | openCL =>
      obtain rfl := Except.ok.inj hc
      have hcall := hcall "streq" (.helper .stringEquality) (by decide)
      have hnot : changes "!" = [] := by decide
      cases negated with
      | true =>
          simpa [hnot] using ((Concludes.symbol (s := "!") (by decide)).append hcall).evaluates
      | false => simpa using hcall.evaluates

theorem evaluates_binary {op : BinaryOp} (h : left.Evaluates effects) (h' : right.Evaluates more)
    (hc : binary d op left right = .ok code) : Reading.Evaluates code.tokens (effects + more) := by
  unfold binary at hc
  split_ifs at hc
  · exact evaluates_stringEquality h h' hc
  · exact h.infixed h' hc

/-- Nothing in the size of an element is evaluated. -/
theorem concludes_elementSize (h : array.Evaluates effects) (hc : elementSize array = .ok code) :
    Concludes code.tokens 0 := by
  obtain ⟨base, hbase, hc⟩ := Result.bind_eq_ok.mp hc
  obtain rfl := Except.ok.inj hc
  have hindexed :=
    ((h.atLeast hbase).infixed (Concludes.number "0").evaluates (s := "[") (by decide)
    (by decide)).symbol (s := "]") (by decide)
  simpa [Code.parenthesized] using hindexed.evaluates.sizeof

/-- The size in bytes of as many elements. -/
theorem evaluates_bytes {count size : Code} (h : array.Evaluates effects)
    (hsize : elementSize array = .ok size) (hcount : Reading.Evaluates count.tokens more) :
    Reading.Evaluates (count ++ Code.operator "*" ++ size).tokens more := by
  simpa [Code.operator] using
    hcount.infixed (concludes_elementSize h hsize).evaluates (s := "*") (by decide) (by decide)

theorem evaluates_number (text : String) : Reading.Evaluates (Code.tokens [.number text]) 0 :=
  (Concludes.number text).evaluates

theorem evaluates_arrayMethod {m : BuiltinMethod} (h : array.Evaluates effects)
    (hargs : List.Forall₂ Operand.Evaluates args effectss)
    (hc : arrayMethod cx d array m args = .ok code) : Reading.Evaluates code.tokens
      (Operation.functionInC cx.program (.call (.builtin m)) ::ₘ (effects + effectss.sum)) := by
  unfold arrayMethod at hc
  split at hc
  case h_1 =>
    rcases hargs with _ | ⟨hstart, _ | ⟨htarget, _ | ⟨hposition, _ | ⟨hlength, _ | _⟩⟩⟩⟩
    obtain ⟨destination, hdestination, hc⟩ := Result.bind_eq_ok.mp hc
    obtain ⟨source, hsource, hc⟩ := Result.bind_eq_ok.mp hc
    obtain ⟨count, hcount, hc⟩ := Result.bind_eq_ok.mp hc
    obtain ⟨size, hsize, hc⟩ := Result.bind_eq_ok.mp hc
    obtain rfl := Except.ok.inj hc
    have hcall := concludes_call (.supplied "memmove" (.header .string)) (.inr ⟨_, rfl⟩)
      (by decide) (.cons (htarget.infixed hposition hdestination)
        (.cons (h.infixed hstart hsource)
          (.cons (evaluates_bytes h hsize (hlength.atLeast hcount)) .nil)))
    refine (congrArg (Reading.Evaluates _) ?_).mp hcall.evaluates
    have hname : callEffects (some "memmove") = {"memmove"} := callEffects_of_not_mem (by decide)
    rw [hname, ← Multiset.singleton_add]
    simp only [Operation.functionInC, List.sum_cons, List.sum_nil]
    abel
  case h_2 =>
    cases hargs
    split at hc
    case h_1 item length _ =>
      obtain ⟨target, htarget, hc⟩ := Result.bind_eq_ok.mp hc
      obtain ⟨size, hsize, hc⟩ := Result.bind_eq_ok.mp hc
      obtain rfl := Except.ok.inj hc
      have hcall := concludes_call (.supplied "memset" (.header .string)) (.inr ⟨_, rfl⟩)
        (by decide) (.cons (h target htarget) (.cons (evaluates_number "0")
          (.cons (evaluates_bytes h hsize (evaluates_number (toString length.toNat))) .nil)))
      have hname : callEffects (some "memset") = {"memset"} := callEffects_of_not_mem (by decide)
      simpa [hname, Operation.functionInC] using hcall.evaluates
    case h_2 => simp [Context.unsupported] at hc
  case h_3 => simp [Context.unmappedMethod] at hc

/-- A function of the library without an effect and its one argument. -/
theorem evaluates_libraryCall (name : String) (supplier : Supplier) {value : Operand} {inner : Code}
    (hidle : name ∈ idleNames) (h : value.Evaluates effects)
    (hinner : Operand.arguments [value] = .ok inner) :
    Reading.Evaluates (Code.tokens (.supplied name supplier :: inner)) effects := by
  obtain ⟨pieces, hpieces, hinner⟩ := Result.bind_eq_ok.mp hinner
  obtain rfl := Except.ok.inj hinner
  have hall := Operand.forall₂_pieces (.cons h .nil) hpieces fun h hc => h.atLeast hc
  simpa [callEffects_of_mem hidle] using
    (concludes_call _ (.inr ⟨supplier, rfl⟩) (ne_sizeof_of_mem hidle) hall).evaluates

/-- A built-in method that does not print. -/
theorem evaluates_builtinCall {receiver : Option Operand} {m : BuiltinMethod}
    (h : List.Forall₂ Operand.Evaluates (receiver.toList ++ args) effectss)
    (hc : builtinCall cx d receiver m args = .ok code) : Reading.Evaluates code.tokens
      ((if m.hasSideEffect then {Operation.functionInC cx.program (.call (.builtin m))} else 0) +
        effectss.sum) := by
  unfold builtinCall at hc
  split at hc
  case h_1 =>
    rcases h with _ | ⟨hobj, _ | ⟨hfactor, _ | ⟨hdivisor, _ | _⟩⟩⟩
    obtain ⟨product, hproduct, hc⟩ := Result.bind_eq_ok.mp hc
    obtain ⟨factor, hfactor', hc⟩ := Result.bind_eq_ok.mp hc
    obtain ⟨divisor, hdivisor', hc⟩ := Result.bind_eq_ok.mp hc
    obtain rfl := Except.ok.inj hc
    have hcast := evaluates_cast (symbol_not_mem_intType d .long) hobj hproduct
    have hquotient := (hcast.infixed (hfactor.atLeast hfactor') (s := "*") (by decide)
      (by decide)).infixed (hdivisor.above hdivisor') (s := "/") (by decide) (by decide)
    have hresult := (Reading.Evaluates.word "int").parenthesized.append_evaluates
      hquotient.parenthesized.evaluates
    simpa [Code.parenthesized, Code.operator, BuiltinMethod.hasSideEffect, add_assoc] using hresult
  case h_2 =>
    rcases h with _ | ⟨hobj, _ | ⟨hposition, _ | _⟩⟩
    simpa [BuiltinMethod.hasSideEffect] using hobj.indexed hposition hc
  case h_3 | h_4 => simp [Context.unmappedMethod] at hc
  case h_5 | h_6 =>
    rcases h with _ | ⟨hobj, hargs⟩
    simpa [BuiltinMethod.hasSideEffect, add_assoc] using evaluates_arrayMethod hobj hargs hc
  case h_7 value =>
    rcases h with _ | ⟨hvalue, _ | _⟩
    obtain ⟨inner, hinner, hc⟩ := Result.bind_eq_ok.mp hc
    obtain rfl := Except.ok.inj hc
    simp only [BuiltinMethod.hasSideEffect, Bool.false_eq_true, if_false, List.sum_cons,
      List.sum_nil, zero_add, add_zero]
    split_ifs
    · exact evaluates_libraryCall _ _ (by decide) hvalue hinner
    · exact evaluates_libraryCall _ _ (by decide) hvalue hinner
  case h_8 value =>
    rcases h with _ | ⟨hvalue, _ | _⟩
    obtain ⟨inner, hinner, hc⟩ := Result.bind_eq_ok.mp hc
    obtain rfl := Except.ok.inj hc
    simpa [BuiltinMethod.hasSideEffect] using evaluates_libraryCall "sqrt"
      (.header .math) (by decide) hvalue hinner
  case h_9 => simp [Context.unsupported] at hc

theorem evaluates_printedValue (h : obj.Evaluates effects) (hc : printedValue d obj = .ok code) :
    Reading.Evaluates code.tokens effects := by
  unfold printedValue at hc
  split at hc
  case h_1 type htype =>
    have hsymbols : ∀ s, .symbol s ∉ type.tokens := by
      cases d with
      | standard =>
          obtain rfl := Option.some.inj htype
          simp
      | openCL => simp [Dialect.longCast] at htype
    split_ifs at hc
    · exact evaluates_cast hsymbols h hc
    · exact h.atLeast hc
  case h_2 => exact h.atLeast hc

theorem evaluates_printfCall {format : String} (h : List.Forall₂ Operand.Evaluates args effectss)
    (hc : printfCall d format args = .ok code) :
    Reading.Evaluates code.tokens ("printf" ::ₘ effectss.sum) := by
  obtain ⟨rest, hrest, hc⟩ := Result.bind_eq_ok.mp hc
  obtain rfl := Except.ok.inj hc
  have hvalues := Operand.forall₂_pieces h hrest evaluates_printedValue
  have hformat : Reading.Evaluates (Code.tokens [.quoted format]) 0 :=
    (Concludes.quoted format).evaluates
  have hcall := concludes_call (.supplied "printf" (.header .stdio)) (.inr ⟨_, rfl⟩)
    (by decide) (.cons hformat hvalues)
  have hname : callEffects (some "printf") = {"printf"} := callEffects_of_not_mem (by decide)
  simpa [hname] using hcall.evaluates

end CFamily

namespace Context

variable {cx : Context} {d : Dialect} {code : Code}

theorem forall₂_evaluates (es : List Expr)
    (h : ∀ e ∈ es, (cx.operand e).Evaluates (cx.reached e)) :
    List.Forall₂ Operand.Evaluates (es.map cx.operand) (es.map cx.reached) :=
  List.forall₂_map_left_iff.mpr (List.forall₂_map_right_iff.mpr (List.forall₂_same.mpr h))

theorem map_sum_reached (es : List Expr) :
    (es.map Expr.reached).sum.map (Operation.functionInC cx.program) = (es.map cx.reached).sum := by
  induction es with
  | nil => rfl
  | cons e es ih => simp [ih, reached]

/-- What is reached is what the expression is itself and what is reached of what is printed. -/
theorem reached_eq (e : Expr) : cx.reached e =
    e.ownEffects.map (Operation.functionInC cx.program) +
      (e.printedOperands.map cx.reached).sum := by
  rw [reached, Expr.reached_eq, Multiset.map_add, map_sum_reached]

theorem reached_builtinCall (receiver : Option Expr) (m : BuiltinMethod) (args : List Expr)
    (ty : Ty) : cx.reached (.call receiver (.builtin m) args ty) =
      (if m.hasSideEffect then {Operation.functionInC cx.program (.call (.builtin m))} else 0) +
        ((receiver.toList ++ args).map cx.reached).sum := by
  rw [reached_eq]
  cases h : m.hasSideEffect <;>
    simp [Expr.ownEffects, Expr.printedOperands, Callee.isStatic, Callee.hasSideEffect, h]

theorem evaluates_print {lineEnd : String} {args : List Expr}
    (h : ∀ e ∈ args, (cx.operand e).Evaluates (cx.reached e))
    (hparts : ∀ parts suffix ty, .interpolated parts suffix ty ∈ args →
      ∀ part ∈ parts, (cx.operand part.arg).Evaluates (cx.reached part.arg))
    (hc : CFamily.print cx d lineEnd (cx.shown args) = .ok code) :
    Reading.Evaluates code.tokens ("printf" ::ₘ (args.map cx.reached).sum) := by
  rcases args with _ | ⟨e, _ | ⟨second, rest⟩⟩
  · exact CFamily.evaluates_printfCall .nil hc
  · rcases CFamily.shown_singleton cx e with ⟨parts, suffix, ty, rfl⟩ | ⟨hshown, -⟩
    · obtain ⟨formats, -, hc⟩ := Result.bind_eq_ok.mp hc
      have hvalues : (cx.holes parts).map Prod.snd = (parts.map Part.arg).map cx.operand := by
        simp [holes_eq, Function.comp_def]
      rw [hvalues] at hc
      have hargs := forall₂_evaluates (parts.map Part.arg)
        (by simpa using hparts parts suffix ty (by simp))
      have hcall := CFamily.evaluates_printfCall hargs hc
      simpa [reached_eq (.interpolated parts suffix ty), Expr.ownEffects, Expr.printedOperands,
        Expr.children] using hcall
    · rw [hshown] at hc
      simp only [CFamily.print] at hc
      split at hc
      case h_1 text ty hliteral =>
        obtain rfl : e = .literal (.str text) ty := hliteral
        have hnone : cx.reached (.literal (.str text) ty) = 0 := rfl
        simpa [hnone] using CFamily.evaluates_printfCall .nil hc
      case h_2 =>
        obtain ⟨format, -, hc⟩ := Result.bind_eq_ok.mp hc
        exact CFamily.evaluates_printfCall (forall₂_evaluates [e] (by simpa using h)) hc
  · simp [CFamily.print_many, unsupported] at hc

/-- The instance a method runs on. -/
theorem evaluates_instanceArgument {receiver : Option Expr}
    (h : ∀ e ∈ receiver, (cx.operand e).Evaluates (cx.reached e))
    (hc : CFamily.instanceArgument (receiver.map cx.operand) = .ok code) :
    Reading.Evaluates code.tokens (receiver.toList.map cx.reached).sum := by
  cases receiver with
  | none =>
      obtain rfl := Except.ok.inj hc
      exact .word "self"
  | some obj =>
      have hobj := h obj rfl
      have haddress : changes "&" = [] := by decide
      simp only [CFamily.instanceArgument, Option.map_some] at hc
      split at hc
      · obtain ⟨inner, hinner, hc⟩ := Result.bind_eq_ok.mp hc
        obtain rfl := Except.ok.inj hc
        simpa [haddress] using
          (Concludes.symbol (s := "&") (by decide)).append_evaluates (hobj.atLeast hinner)
      · simpa using hobj code hc

/-- The function of a method is evaluated itself, and the receiver where the method has one. -/
theorem evaluates_userCall {receiver : Option Expr} {owner : ClassId} {name : String}
    {isStatic : Bool} {args : List Expr} {ty : Ty}
    (hreceiver : ∀ e ∈ receiver, (cx.operand e).Evaluates (cx.reached e))
    (hargs : ∀ e ∈ args, (cx.operand e).Evaluates (cx.reached e))
    (hc : CFamily.userCall cx (receiver.map cx.operand) owner name isStatic (args.map cx.operand) =
      .ok code) :
    Reading.Evaluates code.tokens
      (cx.reached (.call receiver (.user owner name isStatic) args ty)) := by
  obtain ⟨c, self, rest, hclass, hself, hrest, rfl⟩ := CFamily.userCall_eq_ok hc
  have hname : CFamily.functionName c.name name ∉ "sizeof" :: idleNames := by
    have hplain : ∀ w ∈ "sizeof" :: idleNames, '_' ∉ w.toList := by decide
    exact fun hmem => hplain _ hmem (by simp [CFamily.functionName])
  have hrest := Operand.forall₂_pieces (forall₂_evaluates args hargs) hrest fun h hc => h.atLeast hc
  have hfunction : Operation.functionInC cx.program (.call (.user owner name isStatic)) =
      CFamily.functionName c.name name := by
    simp [Operation.functionInC, CFamily.className_of_classOf hclass]
  have hown : Expr.ownEffects (.call receiver (.user owner name isStatic) args ty) =
      {.call (.user owner name isStatic)} := rfl
  have hcalled := callEffects_of_not_mem hname
  have hne : CFamily.functionName c.name name ≠ "sizeof" :=
    fun h => hname (h ▸ List.mem_cons_self ..)
  rw [reached_eq, hown, Multiset.map_singleton, hfunction, ← hcalled]
  cases isStatic with
  | true =>
      obtain rfl := hself
      simpa [Expr.printedOperands, Callee.isStatic] using
        (concludes_call _ (.inl rfl) hne hrest).evaluates
  | false =>
      obtain ⟨first, hfirst, rfl⟩ := hself
      have hfirst := evaluates_instanceArgument hreceiver hfirst
      simpa [Expr.printedOperands, Callee.isStatic] using
        (concludes_call _ (.inl rfl) hne (.cons hfirst hrest)).evaluates

/-- A call of one of the two methods that print. -/
theorem evaluates_printCall {receiver : Option Expr} {m : BuiltinMethod} {lineEnd : String}
    {args : List Expr} {ty : Ty} (hm : m = .consoleWrite ∨ m = .consoleWriteLine)
    (h : ∀ e ∈ args, (cx.operand e).Evaluates (cx.reached e))
    (hparts : ∀ parts suffix ty, .interpolated parts suffix ty ∈ args →
      ∀ part ∈ parts, (cx.operand part.arg).Evaluates (cx.reached part.arg))
    (hc : CFamily.printCall cx d (receiver.map cx.operand) m lineEnd (cx.shown args) = .ok code) :
    Reading.Evaluates code.tokens (cx.reached (.call receiver (.builtin m) args ty)) := by
  cases receiver with
  | some obj => simp [CFamily.printCall, unsupported] at hc
  | none =>
      have hcall := evaluates_print h hparts hc
      rw [reached_builtinCall]
      rcases hm with rfl | rfl <;>
        simpa [BuiltinMethod.hasSideEffect, Operation.functionInC] using hcall

/-- What holds of the operands holds of the expression. An interpolated string that is printed at
once is taken apart, so the parts of such an operand count too. -/
theorem evaluates_of_children (ht : cx.target = .cFamily d) {e : Expr}
    (ih : ∀ child ∈ e.children, (cx.operand child).Evaluates (cx.reached child))
    (hparts : ∀ parts suffix ty, .interpolated parts suffix ty ∈ e.children →
      ∀ part ∈ parts, (cx.operand part.arg).Evaluates (cx.reached part.arg)) :
    (cx.operand e).Evaluates (cx.reached e) := by
  intro code hc
  cases e with
  | literal value ty => exact evaluates_literal ht hc
  | var name ty =>
      obtain rfl := Except.ok.inj hc
      exact .word _
  | this ty =>
      obtain rfl := Except.ok.inj hc
      simp only [this, ht]
      exact .word _
  | const owner name ty =>
      change cx.constant owner name = _ at hc
      simp only [constant, ht] at hc
      obtain ⟨c, -, hc⟩ := Result.bind_eq_ok.mp hc
      obtain rfl := Except.ok.inj hc
      exact .word _
  | enumValue id index ty => exact evaluates_enumValue ht hc
  | field obj name ty =>
      change cx.field (cx.operand obj) name = _ at hc
      simp only [field, ht] at hc
      exact CFamily.evaluates_field (ih obj (by simp [Expr.children])) hc
  | property obj accessor ty =>
      change cx.property accessor (cx.operand obj) = _ at hc
      simp only [property, ht] at hc
      exact CFamily.evaluates_property (ih obj (by simp [Expr.children])) hc
  | call receiver callee args ty =>
      have hreceiver : ∀ e ∈ receiver, (cx.operand e).Evaluates (cx.reached e) := fun e he =>
        ih e (by simp [Expr.children, Option.mem_def.mp he])
      have hargs : ∀ e ∈ args, (cx.operand e).Evaluates (cx.reached e) := fun e he =>
        ih e (by simp [Expr.children, he])
      cases callee with
      | user owner name isStatic =>
          simp only [operand, Context.code, userCall, ht, receiverOperand_eq, operands_eq] at hc
          exact evaluates_userCall hreceiver hargs hc
      | builtin m =>
          change cx.code _ = _ at hc
          rw [code_builtinCall] at hc
          simp only [ht] at hc
          have hparts := fun parts suffix ty (hmem : .interpolated parts suffix ty ∈ args) =>
            hparts parts suffix ty (by simp [Expr.children, hmem])
          split_ifs at hc with hwrite hwriteLine
          · exact hwrite ▸ evaluates_printCall (.inl rfl) hargs hparts hc
          · exact hwriteLine ▸ evaluates_printCall (.inr rfl) hargs hparts hc
          · rw [reached_builtinCall]
            have hoperands : (receiver.map cx.operand).toList ++ args.map cx.operand =
                (receiver.toList ++ args).map cx.operand := by
              cases receiver <;> simp
            exact CFamily.evaluates_builtinCall (hoperands ▸ forall₂_evaluates _ ih) hc
  | index array position ty =>
      change (cx.operand array).indexed (cx.operand position) = _ at hc
      simpa [reached, Expr.reached] using
        (ih array (by simp [Expr.children])).indexed (ih position (by simp [Expr.children])) hc
  | unary op operand ty =>
      have hevaluates := (ih operand (by simp [Expr.children])).unary hc
      rw [reached_eq]
      split_ifs at hevaluates with hop <;>
        simpa [Expr.ownEffects, Expr.printedOperands, Expr.children, hop, Operation.functionInC]
          using hevaluates
  | binary left op right ty =>
      change cx.binary op ty (cx.operand left) (cx.operand right) = _ at hc
      simp only [binary, ht] at hc
      simpa [reached, Expr.reached] using CFamily.evaluates_binary
        (ih left (by simp [Expr.children])) (ih right (by simp [Expr.children])) hc
  | select cond onTrue onFalse ty =>
      simp only [Expr.children, List.forall_mem_cons] at ih
      obtain ⟨hcond, htrue, hfalse, -⟩ := ih
      change (cx.operand cond).selected (cx.operand onTrue) (cx.operand onFalse) = _ at hc
      simpa [reached, Expr.reached] using hcond.selected htrue hfalse hc
  | interpolated parts suffix ty =>
      simp [operand, Context.code, ht, unsupported] at hc
  | resource name ty =>
      change cx.resource name = _ at hc
      simp only [resource, ht, CFamily.resource] at hc
      split_ifs at hc
      · obtain rfl := Except.ok.inj hc
        exact .word _
      · simp [unsupported] at hc

/-- A printed expression evaluates what C reaches of it. -/
theorem evaluates_operand (ht : cx.target = .cFamily d) (e : Expr) :
    (cx.operand e).Evaluates (cx.reached e) := by
  suffices h : (cx.operand e).Evaluates (cx.reached e) ∧
      ∀ child ∈ e.children, (cx.operand child).Evaluates (cx.reached child) from h.1
  induction e using Expr.inductOn with
  | h e ih =>
  refine ⟨evaluates_of_children ht (fun child hchild => (ih child hchild).1) ?_,
    fun child hchild => (ih child hchild).1⟩
  intro parts suffix ty hmem part hpart
  exact (ih _ hmem).2 part.arg (List.mem_map_of_mem hpart)

end Context

end Emitter
