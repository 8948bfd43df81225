import Emitter.Proofs.Expression.Effects
import Emitter.Proofs.Expression.Faithful
import Emitter.Proofs.Reading.Performed
import Emitter.Proofs.Statement.Simple

/-!
# Operations keep their order in ActionScript

A printed expression performs the operations of its source from left to right: a receiver's before
those of the arguments, the sides of an operator from left to right, and a call after both.
-/

namespace Emitter

open Layout Number Program Reading

/-- The printed form of the operand, if it has one, performs the operations. -/
def Operand.Performs (o : Operand) (ops : List String) : Prop :=
  ∀ code, o.code = .ok code → Reading.Performs code.tokens ops

namespace Operand

variable {o left right : Operand} {ops more : List String} {code : Code}

theorem Performs.parenthesized (h : o.Performs ops) (hc : o.parenthesized = .ok code) :
    Completes code.tokens ops := by
  obtain ⟨inner, hinner, rfl⟩ := Result.map_eq_ok.mp hc
  simpa [Code.parenthesized] using (h inner hinner).parenthesized

theorem Performs.atLeast {least : Priority} (h : o.Performs ops) (hc : o.atLeast least = .ok code) :
    Reading.Performs code.tokens ops := by
  unfold Operand.atLeast at hc
  split_ifs at hc
  · exact (h.parenthesized hc).performs
  · exact h code hc

theorem Performs.above {bound : Priority} (h : o.Performs ops) (hc : o.above bound = .ok code) :
    Reading.Performs code.tokens ops := by
  unfold Operand.above at hc
  split_ifs at hc
  · exact (h.parenthesized hc).performs
  · exact h code hc

theorem plain_binaryOp (op : BinaryOp) : op.text ∉ ["(", ")"] ∧ changes op.text = [] := by
  cases op <;> decide

theorem Performs.infixed {op : BinaryOp} (h : left.Performs ops) (h' : right.Performs more)
    (hc : left.infixed op right = .ok code) : Reading.Performs code.tokens (ops ++ more) := by
  obtain ⟨first, hfirst, hc⟩ := Result.bind_eq_ok.mp hc
  obtain ⟨second, hsecond, hc⟩ := Result.bind_eq_ok.mp hc
  obtain rfl := Except.ok.inj hc
  simpa [Code.operator] using
    (h.atLeast hfirst).infixed (h'.above hsecond) (plain_binaryOp op).1 (plain_binaryOp op).2

/-- Pieces with commas between them perform their operations one after the other. -/
theorem performs_commaSeparated {pieces : List Code} {opss : List (List String)}
    (h : List.Forall₂ (fun piece ops => Reading.Performs piece.tokens ops) pieces opss) :
    Reading.Performs (Code.commaSeparated pieces).tokens opss.flatten := by
  induction h with
  | nil => exact Completes.nil.performs
  | @cons piece ops pieces opss hpiece hpieces ih =>
      cases hpieces with
      | nil => simpa [Code.commaSeparated] using hpiece
      | cons hnext hrest =>
          simpa [Code.commaSeparated, Code.comma] using
            hpiece.infixed ih (s := ",") (by decide) (by decide)

theorem forall₂_mapM_atLeast {args : List Operand} {opss : List (List String)} {pieces : List Code}
    (h : List.Forall₂ Operand.Performs args opss)
    (hc : args.mapM (atLeast .argument) = .ok pieces) :
    List.Forall₂ (fun piece ops => Reading.Performs piece.tokens ops) pieces opss := by
  have hall := Result.forall₂_of_mapM_eq_ok hc
  clear hc
  induction h generalizing pieces with
  | nil =>
      cases hall
      exact .nil
  | cons hfirst _ ih =>
      cases hall with
      | cons hpiece hpieces => exact .cons (hfirst.atLeast hpiece) (ih hpieces)

theorem exists_arguments {args : List Operand} {opss : List (List String)}
    (h : List.Forall₂ Operand.Performs args opss) (hc : Operand.arguments args = .ok code) :
    ∃ inner : Code,
      code = Code.parenthesized inner ∧ Reading.Performs inner.tokens opss.flatten := by
  obtain ⟨pieces, hpieces, hc⟩ := Result.bind_eq_ok.mp hc
  obtain rfl := Except.ok.inj hc
  exact ⟨_, rfl, performs_commaSeparated (forall₂_mapM_atLeast h hpieces)⟩

/-- A call behind tokens that do not end in a name. -/
theorem performs_call (name : String) {args : List Operand} {opss : List (List String)}
    {front : List Token} {arguments : Code} (hfront : Completes front ops)
    (h : List.Forall₂ Operand.Performs args opss) (hc : Operand.arguments args = .ok arguments) :
    Reading.Performs (front ++ .word name :: arguments.tokens) (ops ++ opss.flatten ++ [name]) := by
  obtain ⟨inner, rfl, hinner⟩ := exists_arguments h hc
  simpa [Code.parenthesized] using hfront.append_performs (hinner.call name).performs

theorem Performs.indexed (h : left.Performs ops) (h' : right.Performs more)
    (hc : left.indexed right = .ok code) : Reading.Performs code.tokens (ops ++ more) := by
  obtain ⟨array, harray, hc⟩ := Result.bind_eq_ok.mp hc
  obtain ⟨position, hposition, hc⟩ := Result.bind_eq_ok.mp hc
  obtain rfl := Except.ok.inj hc
  have hopened :=
    (h.atLeast harray).infixed (h' position hposition) (s := "[") (by decide) (by decide)
  have hplain : changes "]" = [] := by decide
  simpa [hplain] using (hopened.symbol (s := "]") (by decide)).performs

theorem Performs.selected {third : List String} {cond onTrue onFalse : Operand}
    (h : cond.Performs ops) (h' : onTrue.Performs more) (h'' : onFalse.Performs third)
    (hc : cond.selected onTrue onFalse = .ok code) :
    Reading.Performs code.tokens (ops ++ more ++ third) := by
  obtain ⟨c, hcond, hc⟩ := Result.bind_eq_ok.mp hc
  obtain ⟨t, htrue, hc⟩ := Result.bind_eq_ok.mp hc
  obtain ⟨f, hfalse, hc⟩ := Result.bind_eq_ok.mp hc
  obtain rfl := Except.ok.inj hc
  have hbranches :=
    (h'.atLeast htrue).infixed (h''.atLeast hfalse) (s := ":") (by decide) (by decide)
  simpa [Code.operator] using
    (h.atLeast hcond).infixed hbranches (s := "?") (by decide) (by decide)

end Operand

namespace Context

variable {cx : Context} {code : Code}

theorem performs_finiteFloat (x : Binary64) : Reading.Performs (finiteFloat x).tokens [] := by
  unfold finiteFloat
  split_ifs <;> exact .of_plain (by simp)

theorem performs_integer (n : Int) : Reading.Performs (Code.integer n).tokens [] := by
  unfold Code.integer
  split_ifs <;> exact .of_plain (by simp)

theorem performs_float (ht : cx.target = .actionScript) {x : Binary64}
    (hc : cx.float x = .ok code) :
    Reading.Performs code.tokens [] := by
  simp only [float, ht] at hc
  split_ifs at hc <;> obtain rfl := Except.ok.inj hc
  · exact .of_plain (by simp)
  · exact .of_plain (by simp)
  · exact .of_plain (by simp)
  · exact performs_finiteFloat x

theorem performs_truth (cx : Context) (b : Bool) : Reading.Performs (cx.truth b).tokens [] := by
  unfold truth
  cases cx.target <;> cases b <;> exact .of_plain (by simp)

theorem performs_literal (ht : cx.target = .actionScript) {value : Literal}
    (hc : cx.literal value = .ok code) : Reading.Performs code.tokens [] := by
  cases value with
  | float x => exact performs_float ht hc
  | int n =>
      obtain rfl := Except.ok.inj hc
      exact performs_integer n.toInt
  | bool b =>
      obtain rfl := Except.ok.inj hc
      exact performs_truth cx b
  | str s =>
      obtain rfl := Except.ok.inj hc
      exact .of_plain (by simp)
  | null =>
      obtain rfl := Except.ok.inj hc
      unfold null
      split <;> exact .of_plain (by simp)

theorem performs_enumValue {id : EnumId} {index : UInt64} (hc : cx.enumValue id index = .ok code) :
    Reading.Performs code.tokens [] := by
  obtain ⟨e, -, hc⟩ := Result.bind_eq_ok.mp hc
  split at hc
  · simp [unsupported] at hc
  · split at hc <;> obtain rfl := Except.ok.inj hc <;> exact .of_plain (by simp)

theorem performs_table (ht : cx.target = .actionScript) {items : Code}
    (h : Reading.Performs items.tokens []) : Reading.Performs (cx.table items).tokens [] := by
  have hopened := (Completes.symbol (s := "[") (by decide)).append_performs h
  have hplain : changes "[" = [] ∧ changes "]" = [] := by decide
  simpa [table, ht, hplain] using (hopened.symbol (s := "]") (by decide)).performs

mutual

theorem performs_constValue (ht : cx.target = .actionScript) : ∀ (value : ConstValue) {code : Code},
    cx.constValue value = .ok code → Reading.Performs code.tokens []
  | .int n, code, hc => by
      obtain rfl := Except.ok.inj hc
      exact performs_integer n.toInt
  | .float x, code, hc => performs_float ht hc
  | .bool b, code, hc => by
      obtain rfl := Except.ok.inj hc
      exact performs_truth cx b
  | .str s, code, hc => by
      obtain rfl := Except.ok.inj hc
      exact .of_plain (by simp)
  | .enumValue id index, code, hc => performs_enumValue hc
  | .array items, code, hc => by
      obtain ⟨pieces, hpieces, hc⟩ := Result.bind_eq_ok.mp hc
      obtain rfl := Except.ok.inj hc
      have hitems := @Operand.performs_commaSeparated pieces (pieces.map fun _ => [])
        (List.forall₂_map_right_iff.mpr
          (List.forall₂_same.mpr (performs_constItems ht items hpieces)))
      exact performs_table ht (by simpa using hitems)

theorem performs_constItems (ht : cx.target = .actionScript) :
    ∀ (items : List ConstValue) {pieces : List Code}, cx.constItems items = .ok pieces →
      ∀ piece ∈ pieces, Reading.Performs piece.tokens []
  | [], pieces, hc => by
      obtain rfl := Except.ok.inj hc
      simp
  | item :: rest, pieces, hc => by
      obtain ⟨first, hfirst, hc⟩ := Result.bind_eq_ok.mp hc
      obtain ⟨others, hothers, hc⟩ := Result.bind_eq_ok.mp hc
      obtain rfl := Except.ok.inj hc
      exact List.forall_mem_cons.mpr
        ⟨performs_constValue ht item hfirst, performs_constItems ht rest hothers⟩

end

end Context

namespace ActionScript

open Operation

variable {cx : Context} {obj left right start length : Operand} {args : List Operand}
  {ops more first last : List String} {opss : List (List String)} {code : Code}

theorem completes_classPrefix {id : ClassId} (hc : classPrefix cx id = .ok code) :
    Completes code.tokens [] := by
  unfold classPrefix at hc
  split_ifs at hc
  · obtain rfl := Except.ok.inj hc
    exact .nil
  · obtain ⟨c, -, hc⟩ := Result.bind_eq_ok.mp hc
    obtain rfl := Except.ok.inj hc
    have hplain : changes "." = [] := by decide
    simpa [hplain] using (Performs.word c.name).symbol (s := ".") (by decide)

theorem performs_constant (ht : cx.target = .actionScript) {owner : ClassId} {name : String}
    (hc : constant cx owner name = .ok code) : Reading.Performs code.tokens [] := by
  obtain ⟨c, -, hc⟩ := Result.bind_eq_ok.mp hc
  split at hc
  · obtain ⟨value, hvalue, hc⟩ := Result.bind_eq_ok.mp hc
    obtain rfl := Except.ok.inj hc
    have hperforms := Context.performs_constValue ht _ hvalue
    split_ifs
    · simpa [Code.parenthesized] using hperforms.parenthesized.performs
    · exact hperforms
  · obtain ⟨qualifier, hqualifier, hc⟩ := Result.bind_eq_ok.mp hc
    obtain rfl := Except.ok.inj hc
    simpa using (completes_classPrefix hqualifier).append_performs (.word _)

theorem performs_field {name : String} (h : obj.Performs ops) (hc : field cx obj name = .ok code) :
    Reading.Performs code.tokens ops := by
  obtain ⟨base, hbase, hc⟩ := Result.bind_eq_ok.mp hc
  obtain rfl := Except.ok.inj hc
  simpa [Context.localWord] using
    (h.atLeast hbase).infixed (.word _) (s := ".") (by decide) (by decide)

theorem performs_quotient (h : left.Performs ops) (h' : right.Performs more)
    (hc : quotient left right = .ok code) :
    Reading.Performs code.tokens (ops ++ more ++ ["int"]) := by
  obtain ⟨inner, hinner, hc⟩ := Result.bind_eq_ok.mp hc
  obtain rfl := Except.ok.inj hc
  simpa using ((h.infixed h' hinner).call "int").performs

theorem performs_property {accessor : BuiltinProperty} (h : obj.Performs ops)
    (hc : property accessor obj = .ok code) : Reading.Performs code.tokens ops := by
  cases accessor with
  | signExtendByte =>
      obtain ⟨base, hbase, hc⟩ := Result.bind_eq_ok.mp hc
      obtain rfl := Except.ok.inj hc
      have hflipped := (h.atLeast hbase).infixed (Completes.number "128").performs (s := "^")
        (by decide) (by decide)
      simpa [Code.operator] using hflipped.parenthesized.performs.infixed
        (Completes.number "128").performs (s := "-") (by decide) (by decide)
  | lowByte =>
      obtain ⟨base, hbase, hc⟩ := Result.bind_eq_ok.mp hc
      obtain rfl := Except.ok.inj hc
      simpa [Code.operator] using (h.atLeast hbase).infixed (Completes.number "0xff").performs
        (s := "&") (by decide) (by decide)
  | stringLength =>
      obtain ⟨base, hbase, hc⟩ := Result.bind_eq_ok.mp hc
      obtain rfl := Except.ok.inj hc
      simpa using (h.atLeast hbase).infixed (.word "length") (s := ".") (by decide) (by decide)

/-- A function behind the name of a class. -/
theorem completes_scope (name : String) :
    Completes [.word name, .symbol "."] [] := by
  have hplain : changes "." = [] := by decide
  simpa [hplain] using (Performs.word name).symbol (s := ".") (by decide)

theorem performs_helperCall {helper : Helper} {name : String}
    (h : List.Forall₂ Operand.Performs args opss) (hc : helperCall helper name args = .ok code) :
    Reading.Performs code.tokens (opss.flatten ++ [name]) := by
  obtain ⟨inner, hinner, hc⟩ := Result.bind_eq_ok.mp hc
  obtain rfl := Except.ok.inj hc
  simpa using Operand.performs_call name (completes_scope "Ci") h hinner

theorem performs_mathCall {name : String} (h : List.Forall₂ Operand.Performs args opss)
    (hc : mathCall name args = .ok code) :
    Reading.Performs code.tokens (opss.flatten ++ [name]) := by
  obtain ⟨inner, hinner, hc⟩ := Result.bind_eq_ok.mp hc
  obtain rfl := Except.ok.inj hc
  simpa using Operand.performs_call name (completes_scope "Math") h hinner

/-- A start without effects is printed at both ends. -/
theorem performs_substring (h : obj.Performs ops) (hstart : start.Performs first)
    (hlength : length.Performs last) (hc : substring obj start length = .ok code) :
    Reading.Performs code.tokens
      (ops ++ (if start.expr.hasSideEffect then [] else first) ++ first ++
      last ++ ["substring"]) := by
  unfold substring at hc
  split_ifs at hc ⊢
  · have hargs : List.Forall₂ Operand.Performs [obj, start, length] [ops, first, last] :=
      .cons h (.cons hstart (.cons hlength .nil))
    simpa using performs_helperCall hargs hc
  · obtain ⟨receiver, hreceiver, hc⟩ := Result.bind_eq_ok.mp hc
    obtain ⟨low, hlow, hc⟩ := Result.bind_eq_ok.mp hc
    obtain ⟨high, hhigh, hc⟩ := Result.bind_eq_ok.mp hc
    obtain rfl := Except.ok.inj hc
    have hargs := @Operand.performs_commaSeparated [low, high] [first, first ++ last]
      (.cons (hstart.atLeast hlow) (.cons (hstart.infixed hlength hhigh) .nil))
    have hfront := (h.atLeast hreceiver).symbol (s := ".") (by decide)
    have hplain : changes "." = [] := by decide
    simpa [hplain, Code.parenthesized] using
      hfront.append_performs (hargs.call "substring").performs

theorem performs_method {m : BuiltinMethod} (h : obj.Performs ops)
    (hargs : List.Forall₂ Operand.Performs args opss) (hm : m ≠ .substring)
    (hc : method cx obj m args = .ok code) :
    Reading.Performs code.tokens (ops ++ opss.flatten ++ [functionName m]) := by
  unfold method at hc
  split at hc
  · rcases hargs with _ | ⟨hfactor, _ | ⟨hdivisor, _ | _⟩⟩
    obtain ⟨product, hproduct, hc⟩ := Result.bind_eq_ok.mp hc
    obtain ⟨factor, hfactor', hc⟩ := Result.bind_eq_ok.mp hc
    obtain ⟨divisor, hdivisor', hc⟩ := Result.bind_eq_ok.mp hc
    obtain rfl := Except.ok.inj hc
    have hquotient := ((h.atLeast hproduct).infixed (hfactor.atLeast hfactor') (s := "*")
      (by decide) (by decide)).infixed (hdivisor.above hdivisor') (s := "/") (by decide) (by decide)
    simpa [Code.operator, functionName] using (hquotient.call "int").performs
  · rcases hargs with _ | ⟨hposition, _ | _⟩
    obtain ⟨base, hbase, hc⟩ := Result.bind_eq_ok.mp hc
    obtain ⟨position, hposition', hc⟩ := Result.bind_eq_ok.mp hc
    obtain rfl := Except.ok.inj hc
    have hfront := (h.atLeast hbase).symbol (s := ".") (by decide)
    have hplain : changes "." = [] := by decide
    simpa [hplain, Code.parenthesized, functionName] using
      hfront.append_performs ((hposition position hposition').call "charCodeAt").performs
  · exact absurd rfl hm
  · simpa [functionName] using performs_helperCall (.cons h hargs) hc
  · simpa [functionName] using performs_helperCall (.cons h hargs) hc
  · cases hargs
    obtain ⟨inner, hinner, hc⟩ := Result.bind_eq_ok.mp hc
    obtain rfl := Except.ok.inj hc
    obtain ⟨array, harray, rfl⟩ := Result.map_eq_ok.mp hinner
    simpa [Code.parenthesized, functionName] using
      (completes_scope "Ci").append_performs ((h array harray).call "clearArray").performs
  · simp [Context.unsupported] at hc

theorem performs_userCall {receiver : Option Operand} {owner : ClassId} {name : String}
    {isStatic : Bool} (h : ∀ obj ∈ receiver, obj.Performs ops) (hnone : receiver = none → ops = [])
    (hargs : List.Forall₂ Operand.Performs args opss)
    (hc : userCall cx receiver owner name isStatic args = .ok code) :
    Reading.Performs code.tokens (ops ++ opss.flatten ++ [cx.target.localName name]) := by
  obtain ⟨qualifier, inner, hinner, rfl, hqualifier⟩ := userCall_eq_ok hc
  have hfront : Completes qualifier.tokens ops := by
    have hplain : changes "." = [] := by decide
    cases receiver with
    | some obj =>
        obtain ⟨base, hbase, rfl⟩ := hqualifier
        simpa [hplain] using ((h obj rfl).atLeast hbase).symbol (s := ".") (by decide)
    | none =>
        obtain rfl := hnone rfl
        dsimp only at hqualifier
        split_ifs at hqualifier
        · exact completes_classPrefix hqualifier
        · obtain rfl := hqualifier
          exact .nil
  simpa [Context.localWord] using Operand.performs_call _ hfront hargs hinner

/-- The texts and values behind those that are summed up already. -/
theorem performs_interpolatedTail {holes : List (Hole × Operand)}
    (h : List.Forall₂ (fun hole ops => hole.2.Performs ops) holes opss) {sum : List Token}
    (hsum : Reading.Performs sum ops) (hc : interpolatedTail cx false holes = .ok code) :
    Reading.Performs (sum ++ code.tokens) (ops ++ opss.flatten) := by
  induction h generalizing sum ops code with
  | nil =>
      obtain rfl := Except.ok.inj hc
      simpa using hsum
  | @cons hole added holes opss harg hrest ih =>
      obtain ⟨shown, others, hshown, hothers, rfl⟩ := interpolatedTail_cons_eq_ok hc
      have hsummed : ∀ {sum : List Token}, Reading.Performs sum ops →
          Reading.Performs (sum ++ (Code.operator "+" ++ shown).tokens) (ops ++ added) := by
        intro sum hsum
        simpa [Code.operator] using
          hsum.infixed (harg.above hshown) (s := "+") (by decide) (by decide)
      simp only [Bool.false_eq_true, if_false]
      split_ifs with hbefore
      · have htext :
            Reading.Performs (sum ++ [Token.symbol "+", Token.quoted hole.1.before]) ops := by
          simpa using hsum.infixed (Completes.quoted hole.1.before).performs (s := "+") (by decide)
            (by decide)
        have hrest := ih (hsummed htext) hothers
        simpa [Code.operator] using hrest
      · simpa [Code.operator] using ih (hsummed hsum) hothers

theorem performs_interpolated {holes : List (Hole × Operand)} {suffix : String}
    (h : List.Forall₂ (fun hole ops => hole.2.Performs ops) holes opss)
    (hc : interpolated cx holes suffix = .ok code) : Reading.Performs code.tokens opss.flatten := by
  obtain ⟨chain, hchain, hc⟩ := Result.bind_eq_ok.mp hc
  cases h with
  | nil =>
      obtain rfl := Except.ok.inj hc
      exact (Completes.quoted suffix).performs
  | @cons hole added holes opss harg hrest =>
      obtain ⟨shown, others, hshown, hothers, rfl⟩ := interpolatedTail_cons_eq_ok hchain
      have hfirst :=
        (Completes.quoted hole.1.before).performs.infixed (harg.above hshown) (s := "+")
        (by decide) (by decide)
      have hsum := performs_interpolatedTail hrest hfirst hothers
      simp only [List.isEmpty_cons, Bool.false_eq_true, if_false, if_true] at hc
      split_ifs at hc with hsuffix
      · obtain rfl := Except.ok.inj hc
        simpa [Code.operator] using hsum.infixed (Completes.quoted suffix).performs (s := "+")
          (by decide) (by decide)
      · obtain rfl := Except.ok.inj hc
        simpa [Code.operator] using hsum

end ActionScript

theorem plain_prefixed (op : UnaryOp) : op.text ∉ ["(", ")"] ∧
    changes op.text = (if op.mutates then [op.text] else []) := by
  cases op <;> decide

theorem performs_unary {op : UnaryOp} {o : Operand} {ops : List String} {code : Code}
    (h : o.Performs ops) (hc : Context.unary op o = .ok code) :
    Reading.Performs code.tokens (if op.isPostfix then ops ++ [op.text]
      else (if op.mutates then [op.text] else []) ++ ops) := by
  obtain ⟨hsymbol, hchanges⟩ := plain_prefixed op
  unfold Context.unary at hc
  split_ifs at hc with hpost
  · have hmutates : op.mutates = true := by
      cases op <;> simp_all [UnaryOp.isPostfix, UnaryOp.mutates]
    obtain ⟨base, hbase, hc⟩ := Result.bind_eq_ok.mp hc
    obtain rfl := Except.ok.inj hc
    simpa [hpost, hchanges, hmutates] using ((h.atLeast hbase).symbol hsymbol).performs
  · obtain ⟨inner, hinner, rfl⟩ := Operand.prefixed_eq_ok hc
    have hperforms : Reading.Performs inner.tokens ops := by
      split_ifs at hinner
      · exact (h.parenthesized hinner).performs
      · exact h.atLeast hinner
    simpa [hpost, hchanges] using (Completes.symbol hsymbol).append_performs hperforms

namespace Context

variable {cx : Context} {code : Code}

/-- The operations of an expression as they are read in its printed form. -/
def performedBy (e : Expr) : List String := e.printed.map Operation.spelling

theorem forall₂_operands {es : List Expr}
    (h : ∀ e ∈ es, (cx.operand e).Performs (performedBy e)) :
    List.Forall₂ Operand.Performs (es.map cx.operand) (es.map performedBy) :=
  List.forall₂_map_left_iff.mpr (List.forall₂_map_right_iff.mpr (List.forall₂_same.mpr h))

theorem flatten_performedBy (es : List Expr) :
    (es.map performedBy).flatten = (es.flatMap Expr.printed).map Operation.spelling := by
  unfold performedBy
  simp [List.flatMap_def, Function.comp_def, List.map_flatten]

theorem performedBy_call {receiver : Option Expr} {callee : Callee} {args : List Expr} {ty : Ty}
    (h : ∀ start length, callee = .builtin .substring → args ≠ [start, length]) :
    performedBy (.call receiver callee args ty) =
      (receiver.toList.map performedBy).flatten ++ (args.map performedBy).flatten ++
        [Operation.spelling (.call callee)] := by
  have hprinted : Expr.printed (.call receiver callee args ty) =
      (receiver.toList ++ args).flatMap Expr.printed ++ [.call callee] := Expr.operations_call h
  simp [flatten_performedBy, performedBy, hprinted]

theorem performedBy_substring (obj start length : Expr) (ty : Ty) :
    performedBy (.call (some obj) (.builtin .substring) [start, length] ty) =
      performedBy obj ++ (if start.hasSideEffect then [] else performedBy start) ++
        performedBy start ++ performedBy length ++ ["substring"] := by
  unfold performedBy Expr.printed
  rw [Expr.operations_substring]
  cases start.hasSideEffect <;> simp [Operation.spelling, Operation.functionName]

theorem performs_builtinCall {receiver : Option Expr} {m : BuiltinMethod} {args : List Expr}
    {ty : Ty}
    (hreceiver : ∀ e ∈ receiver, (cx.operand e).Performs (performedBy e))
    (hargs : ∀ e ∈ args, (cx.operand e).Performs (performedBy e))
    (happlied : (Expr.call receiver (.builtin m) args ty).isApplied = true)
    (hc : ActionScript.builtinCall cx (receiver.map cx.operand) m
      (args.map cx.operand) = .ok code) :
    Reading.Performs code.tokens (performedBy (.call receiver (.builtin m) args ty)) := by
  by_cases hm : m = .substring
  · obtain rfl := hm
    cases receiver with
    | none => simp [Expr.isApplied, BuiltinMethod.hasReceiver] at happlied
    | some obj =>
        obtain ⟨start, length, rfl⟩ : ∃ start length, args = [start, length] :=
          List.length_eq_two.mp
            (by simpa [Expr.isApplied, BuiltinMethod.hasReceiver, BuiltinMethod.arities]
              using happlied)
        rw [performedBy_substring]
        exact ActionScript.performs_substring (hreceiver obj rfl) (hargs start (by simp))
          (hargs length (by simp)) hc
  · rw [performedBy_call fun _ _ h => absurd (Callee.builtin.inj h) hm]
    have hforall := forall₂_operands hargs
    cases receiver with
    | some obj =>
        cases m with
        | consoleWrite => simp [ActionScript.builtinCall, unmappedMethod] at hc
        | _ =>
            simpa using ActionScript.performs_method (hreceiver obj rfl) hforall hm hc
    | none =>
        cases m with
        | mathAbs | mathSqrt =>
            simpa [Operation.spelling, Operation.functionName] using
              ActionScript.performs_mathCall hforall hc
        | consoleWriteLine =>
            simp only [ActionScript.builtinCall, Option.map_none] at hc
            rcases args with _ | ⟨arg, _ | ⟨second, rest⟩⟩
            · obtain rfl := Except.ok.inj hc
              simpa [Code.parenthesized, Operation.functionName] using
                ((Completes.quoted "").performs.call "trace").performs
            · obtain ⟨shown, hshown, hc⟩ := Result.bind_eq_ok.mp hc
              obtain rfl := Except.ok.inj hc
              simpa [Code.parenthesized, Operation.functionName] using
                ((hargs arg (by simp) shown hshown).call "trace").performs
            · simp [Expr.isApplied, BuiltinMethod.arities] at happlied
        | _ => simp [ActionScript.builtinCall, unmappedMethod, unsupported] at hc

theorem performs_code (ht : cx.target = .actionScript) (e : Expr)
    (happlied : e.everywhere Expr.isApplied = true) : (cx.operand e).Performs (performedBy e) := by
  induction e using Expr.inductOn with
  | h e ih =>
  obtain ⟨happlied, hchildren⟩ := Expr.everywhere_iff.mp happlied
  have ih := fun child hchild => ih child hchild (hchildren child hchild)
  intro code hc
  cases e with
  | literal value ty => exact performs_literal ht hc
  | var name ty =>
      obtain rfl := Except.ok.inj hc
      exact .word _
  | this ty =>
      obtain rfl := Except.ok.inj hc
      unfold this
      split <;> exact .word _
  | const owner name ty =>
      change cx.constant owner name = _ at hc
      simp only [constant, ht] at hc
      exact ActionScript.performs_constant ht hc
  | enumValue id index ty => exact performs_enumValue hc
  | field obj name ty =>
      change cx.field (cx.operand obj) name = _ at hc
      simp only [field, ht] at hc
      exact ActionScript.performs_field (ih obj (by simp [Expr.children])) hc
  | property obj accessor ty =>
      change cx.property accessor (cx.operand obj) = _ at hc
      simp only [property, ht] at hc
      exact ActionScript.performs_property (ih obj (by simp [Expr.children])) hc
  | call receiver callee args ty =>
      have hreceiver : ∀ e ∈ receiver, (cx.operand e).Performs (performedBy e) := fun e he =>
        ih e (by simp [Expr.children, Option.mem_def.mp he])
      have hargs : ∀ e ∈ args, (cx.operand e).Performs (performedBy e) := fun e he =>
        ih e (by simp [Expr.children, he])
      cases callee with
      | user owner name isStatic =>
          simp only [operand, Context.code, userCall, ht, receiverOperand_eq, operands_eq] at hc
          rw [performedBy_call (by simp)]
          have hfront : ∀ obj ∈ receiver.map cx.operand,
              obj.Performs (receiver.toList.map performedBy).flatten := by
            cases receiver <;> simp_all
          have hperforms := ActionScript.performs_userCall hfront (by cases receiver <;> simp)
            (forall₂_operands hargs) hc
          rwa [ht] at hperforms
      | builtin m =>
          simp only [operand, Context.code, ht, receiverOperand_eq, operands_eq] at hc
          exact performs_builtinCall hreceiver hargs happlied hc
  | index array position ty =>
      change (cx.operand array).indexed (cx.operand position) = _ at hc
      simpa [performedBy, Expr.printed, Expr.operations] using
        (ih array (by simp [Expr.children])).indexed (ih position (by simp [Expr.children])) hc
  | unary op operand ty =>
      have hperforms := performs_unary (ih operand (by simp [Expr.children])) hc
      simp only [performedBy, Expr.printed, Expr.operations]
      split_ifs at hperforms ⊢ <;>
        simpa [performedBy, Expr.printed, Operation.spelling] using hperforms
  | binary left op right ty =>
      change cx.binary op ty (cx.operand left) (cx.operand right) = _ at hc
      simp only [binary, ht, ActionScript.binary] at hc
      have hleft := ih left (by simp [Expr.children])
      have hright := ih right (by simp [Expr.children])
      simp only [performedBy, Expr.printed, Expr.operations]
      split_ifs at hc ⊢
      · simpa [performedBy, Expr.printed, Operation.spelling] using
          ActionScript.performs_quotient hleft hright hc
      · simpa [performedBy, Expr.printed] using hleft.infixed hright hc
  | select cond onTrue onFalse ty =>
      simp only [Expr.children, List.forall_mem_cons] at ih
      obtain ⟨hcond, htrue, hfalse, -⟩ := ih
      change (cx.operand cond).selected (cx.operand onTrue) (cx.operand onFalse) = _ at hc
      simpa [performedBy, Expr.printed, Expr.operations] using hcond.selected htrue hfalse hc
  | interpolated parts suffix ty =>
      simp only [operand, Context.code, ht] at hc
      rw [holes_eq] at hc
      have hholes : List.Forall₂ (fun (hole : Hole × Operand) ops => hole.2.Performs ops)
          (parts.map fun part => (part.hole, cx.operand part.arg))
          (parts.map fun part => performedBy part.arg) :=
        List.forall₂_map_left_iff.mpr (List.forall₂_map_right_iff.mpr (List.forall₂_same.mpr
          fun part hpart => ih part.arg (List.mem_map_of_mem hpart)))
      have hprinted : Expr.printed (.interpolated parts suffix ty) =
          (parts.map Part.arg).flatMap Expr.printed := Expr.partOperations_eq parts
      have hflat := flatten_performedBy (parts.map Part.arg)
      rw [performedBy, hprinted, ← hflat]
      simpa [Function.comp_def] using ActionScript.performs_interpolated hholes hc
  | resource name ty =>
      change cx.resource name = _ at hc
      simp [resource, ht, unsupported] at hc

end Context

/-- The operations of an assignment as they are printed. The place of an integer quotient is printed
twice unless that has effects. -/
def Program.Expr.assigned (target : Expr) (op : AssignOp) (value : Expr) : List Operation :=
  if op = .div ∧ target.ty.isInteger then
    if target.hasSideEffect then target.printed ++ value.printed ++ [.divideElement]
    else target.printed ++ target.printed ++ value.printed ++ [.quotient]
  else target.printed ++ value.printed

theorem filter_printed (e : Expr) : e.printed.filter Operation.hasEffect = e.effects :=
  Expr.filter_operations (by simp) e

theorem filter_assigned (target : Expr) (op : AssignOp) (value : Expr) :
    (target.assigned op value).filter Operation.hasEffect = target.effects ++ value.effects := by
  have hquotient : Operation.hasEffect .quotient = false ∧
      Operation.hasEffect .divideElement = false := ⟨rfl, rfl⟩
  unfold Expr.assigned
  split_ifs with hdiv heffect
  · simp [filter_printed, hquotient]
  · have hpure : target.printed.filter Operation.hasEffect = [] :=
      Expr.filter_operations_eq_nil (by simpa using heffect)
    have heffects : target.effects = [] := (filter_printed target).symm.trans hpure
    simp [hpure, heffects, filter_printed, hquotient]
  · simp [filter_printed]

theorem performs_assign {cx : Context} (ht : cx.target = .actionScript) {target value : Expr}
    {op : AssignOp} {code : Code} (htarget : target.everywhere Expr.isApplied = true)
    (hvalue : value.everywhere Expr.isApplied = true)
    (hc : ActionScript.assign cx target op value = .ok code) :
    Reading.Performs code.tokens ((target.assigned op value).map Operation.spelling) := by
  have hplain : ∀ op : AssignOp, op.text ∉ ["(", ")"] ∧ changes op.text = [] := by
    intro op
    cases op <;> decide
  have hplace := Context.performs_code ht target htarget
  have hgiven := Context.performs_code ht value hvalue
  unfold ActionScript.assign at hc
  unfold Expr.assigned
  by_cases hdiv : op = .div ∧ target.ty.isInteger = true
  · rw [if_pos hdiv] at hc ⊢
    cases heffect : target.hasSideEffect with
    | true =>
        simp only [heffect, Bool.not_true, Bool.false_eq_true, if_false, if_true] at hc ⊢
        cases target with
        | index array position ty =>
            obtain ⟨-, hoperands⟩ := Expr.everywhere_iff.mp htarget
            have hargs := @Context.forall₂_operands cx [array, position, value]
              fun e he => Context.performs_code ht e (by
                simp only [Expr.children, List.forall_mem_cons] at hoperands
                simp only [List.mem_cons, List.not_mem_nil, or_false] at he
                rcases he with rfl | rfl | rfl
                · exact hoperands.1
                · exact hoperands.2.1
                · exact hvalue)
            have hperforms := ActionScript.performs_helperCall hargs hc
            simpa [Context.performedBy, Expr.printed, Expr.operations, Operation.spelling] using
              hperforms
        | _ => simp [Context.unsupported] at hc
    | false =>
        simp only [heffect, Bool.not_false, Bool.false_eq_true, if_false, if_true] at hc ⊢
        obtain ⟨place, hcode, hc⟩ := Result.bind_eq_ok.mp hc
        obtain ⟨quotient, hquotient, hc⟩ := Result.bind_eq_ok.mp hc
        obtain rfl := Except.ok.inj hc
        have hperforms := (hplace place hcode).infixed
          (ActionScript.performs_quotient hplace hgiven hquotient) (s := "=") (by decide)
            (by decide)
        simpa [Code.operator, Context.performedBy, Operation.spelling] using hperforms
  · rw [if_neg hdiv] at hc ⊢
    obtain ⟨place, hcode, hc⟩ := Result.bind_eq_ok.mp hc
    obtain ⟨given, hgiven', hc⟩ := Result.bind_eq_ok.mp hc
    obtain rfl := Except.ok.inj hc
    have hperforms :=
      (hplace place hcode).infixed (hgiven given hgiven') (hplain op).1 (hplain op).2
    simpa [Code.operator, Context.performedBy] using hperforms

/-- The code performs the printed operations, of which those with effects are the source's in its
order. The text is read as the same tokens if it is legible. -/
structure Keeps (code : Code) (printed source : List Operation) (legible : Prop) : Prop where
  performed : Reading.performed code.tokens = printed.map Operation.spelling
  effects : printed.filter Operation.hasEffect = source
  scan : legible → Reading.scan code.text = some code.tokens

theorem scan_text_of_tidy {code : Code} (h : Code.Tidy true code) :
    Reading.scan code.text = some code.tokens :=
  Code.scan_text h.spelled (h.joint.imp fun _ _ hjoint => hjoint.apart rfl)

theorem keeps_code {cx : Context} (ht : cx.target = .actionScript) {e : Expr} {code : Code}
    (happlied : e.everywhere Expr.isApplied = true) (hc : cx.code e = .ok code) :
    Keeps code e.printed e.effects (cx.program.Named cx.target ∧
      e.everywhere Expr.isNamed = true ∧ e.everywhere cx.isLegible = true) where
  performed := (Context.performs_code ht e happlied code hc).performed_eq
  effects := filter_printed e
  scan := by
    rintro ⟨hnamed, hname, hlegible⟩
    exact scan_text_of_tidy (Context.stretch_code hnamed hname (fun _ => hlegible) hc).toTidy

theorem keeps_assign {cx : Context} (ht : cx.target = .actionScript) {target value : Expr}
    {op : AssignOp} {code : Code} (htarget : target.everywhere Expr.isApplied = true)
    (hvalue : value.everywhere Expr.isApplied = true) (hc : cx.assign target op value = .ok code) :
    Keeps code (target.assigned op value) (target.effects ++ value.effects)
      (cx.program.Named cx.target ∧
        (target.everywhere Expr.isNamed = true ∧ target.everywhere cx.isLegible = true) ∧
          value.everywhere Expr.isNamed = true ∧ value.everywhere cx.isLegible = true) := by
  have hassign : ActionScript.assign cx target op value = .ok code := by
    simpa only [Context.assign, ht] using hc
  refine ⟨(performs_assign ht htarget hvalue hassign).performed_eq, filter_assigned target op value,
    ?_⟩
  rintro ⟨hnamed, ⟨hname, hlegible⟩, hname', hlegible'⟩
  exact scan_text_of_tidy
    (ActionScript.stretch_assign hnamed ht hname hname'
      (fun _ => ⟨hlegible, hlegible'⟩) hassign).toTidy

/-- Expressions and assignments perform the operations of their source in its order, and so do their
texts if no number in them is printed where it is read as something else. -/
theorem keeps_operations {cx : Context} (ht : cx.target = .actionScript) :
    (∀ e code, e.everywhere Expr.isApplied = true → cx.code e = .ok code →
      Keeps code e.printed e.effects (cx.program.Named cx.target ∧
        e.everywhere Expr.isNamed = true ∧ e.everywhere cx.isLegible = true)) ∧
    (∀ target op value code, target.everywhere Expr.isApplied = true →
      value.everywhere Expr.isApplied = true → cx.assign target op value = .ok code →
        Keeps code (target.assigned op value) (target.effects ++ value.effects)
          (cx.program.Named cx.target ∧
            (target.everywhere Expr.isNamed = true ∧ target.everywhere cx.isLegible = true) ∧
              value.everywhere Expr.isNamed = true ∧ value.everywhere cx.isLegible = true)) :=
  ⟨fun _ _ happlied hc => keeps_code ht happlied hc,
    fun _ _ _ _ htarget hvalue hc => keeps_assign ht htarget hvalue hc⟩

/-- A start with effects is printed once and a start without effects twice. -/
theorem keeps_operations_substrings :
    let cx : Context := ⟨.empty, .actionScript, none⟩
    let text : Expr := .var "s" .string
    let i : Expr := .var "i" (.int .int)
    let counted : Expr := .unary .postInc i (.int .int)
    let substring (start length : Expr) : Expr :=
      .call (some text) (.builtin .substring) [start, length] .string
    let e : Expr := .binary (substring counted i) .add (substring i counted) .string
    ∃ code, cx.code e = .ok code ∧
      code.text = "Ci.substring(s, i++, i) + s.substring(i, i + i++)" ∧
      Keeps code e.printed [.change .postInc, .change .postInc]
        (cx.program.Named cx.target ∧
          e.everywhere Expr.isNamed = true ∧ e.everywhere cx.isLegible = true) := by
  intro cx text i counted substring e
  exact ⟨_, rfl, by decide, (keeps_operations rfl).1 e _ (by decide) rfl⟩

/-- A minus and the sign of a number are read as a decrement. -/
theorem performed_fused_sign :
    let cx : Context := ⟨.empty, .actionScript, none⟩
    let half : Expr := .literal (.float ⟨0xBFE0000000000000⟩) (.float .double)
    let e : Expr := .unary .neg half (.float .double)
    ∃ code, cx.code e = .ok code ∧ code.text = "--0.5" ∧
      e.everywhere Expr.isApplied = true ∧ e.effects = [] ∧
      (Reading.scan code.text).map Reading.performed = some ["--"] := by
  intro cx half e
  have hcode : cx.code e = .ok [.symbol "-", .symbol "-", .number "0.5"] := by decide +kernel
  exact ⟨_, hcode, by decide, rfl, rfl, by decide⟩

end Emitter
