import Emitter.Proofs.Capture.Bare

/-!
# Bare names in printed expressions

Each production prints its own bare names and those of its printed operands, and no others. With
this for every form of expression, the bare names of a printed expression are those that are listed
for it.
-/

namespace Emitter

open Layout Number Program Text

/-- A method that does not print is printed with all its arguments. -/
theorem Context.printedArgs_eq {cx : Context} {m : BuiltinMethod}
    (hm : m ≠ .consoleWrite ∧ m ≠ .consoleWriteLine) (es : List Expr) :
    cx.printedArgs m es = es := by
  simp [Context.printedArgs, Context.takesFirst, hm]

namespace CFamily

variable {cx : Context} {d : Dialect} {obj left right : Operand} {args : List Operand} {code : Code}

/-- The bare names among printed names: those that are not coined. -/
abbrev bareOf (names : List PrintedName) : List BareName := names.filterMap BareName.ofPrinted?

theorem shows_literal (ht : cx.target = .cFamily d) {value : Literal} {ty : Ty}
    (hc : cx.literal value = .ok code) : cx.Shows (bareOwn cx d (.literal value ty)) code := by
  cases value with
  | float x =>
      simp only [Context.literal, Context.float, ht] at hc
      split_ifs at hc
      · obtain rfl := Except.ok.inj hc
        exact Context.shows_finiteFloat x
      · simp [Context.unsupported] at hc
  | int n =>
      obtain rfl := Except.ok.inj hc
      exact Context.shows_integer n.toInt
  | str s =>
      obtain rfl := Except.ok.inj hc
      exact Context.shows_of_names ht (fun _ => rfl) (by simp [own])
  | bool b =>
      obtain rfl := Except.ok.inj hc
      exact Context.shows_of_names ht (by simp [Context.truth, ht, own, Lexeme.text])
        (by simp [own, BareName.ofPrinted?])
  | null =>
      obtain rfl := Except.ok.inj hc
      exact Context.shows_of_names ht (by simp [Context.null, ht, own, Lexeme.text])
        (by simp [own, BareName.ofPrinted?])

theorem shows_enumValue (ht : cx.target = .cFamily d) {id : EnumId} {index : UInt64}
    (hc : cx.enumValue id index = .ok code) :
    cx.Shows (bareOf (PrintedName.ifPresent cx.program (.enumerator id index))) code := by
  obtain ⟨e, he, hc⟩ := Result.bind_eq_ok.mp hc
  split at hc
  case h_1 => simp [Context.unsupported] at hc
  case h_2 value hvalue =>
    simp only [ht] at hc
    obtain rfl := Except.ok.inj hc
    refine Context.shows_of_names ht ?_ ?_ <;>
      simp [PrintedName.ifPresent, PrintedName.isPresent, enumeratorName, enumerator?,
        Context.enumOf_eq_ok he, hvalue, Lexeme.text, BareName.ofPrinted?]

theorem shows_constant (ht : cx.target = .cFamily d) {owner : ClassId} {name : String}
    (hc : constant cx owner name = .ok code) : cx.Shows [.constant owner name] code := by
  obtain ⟨c, hclass, hc⟩ := Result.bind_eq_ok.mp hc
  obtain rfl := Except.ok.inj hc
  have hclass : cx.program.classes[owner.index.toNat]? = some c := Context.classOf_eq_ok hclass
  intro rest w
  simp [BareName.text_constant_of_cFamily ht, constantName, hclass]

/-- A field stands behind its instance. -/
theorem shows_field {name : String} (h : obj.Shows cx) (hc : field cx obj name = .ok code) :
    cx.Shows (cx.bareNames obj.expr) code := by
  obtain ⟨base, hbase, hc⟩ := Result.bind_eq_ok.mp hc
  obtain rfl := Except.ok.inj hc
  intro rest w
  rw [List.append_assoc, (h.atLeast hbase).mem, List.cons_append, List.cons_append,
    List.nil_append, Context.localWord, Code.bare_selected]
  split <;> simp

theorem shows_cast {type : Code} {names : List BareName} (htype : cx.Shows names type)
    (h : obj.Shows cx) (hc : cast type obj = .ok code) :
    cx.Shows (names ++ cx.bareNames obj.expr) code := by
  obtain ⟨inner, hinner, hc⟩ := Result.bind_eq_ok.mp hc
  obtain rfl := Except.ok.inj hc
  intro rest w
  simp [htype.parenthesized.mem, (h.atLeast hinner).mem, or_and_right, exists_or, or_assoc]

theorem shows_intType (d : Dialect) (kind : IntKind) :
    cx.Shows [.fixed (d.intType kind)] [d.intType kind] := by
  intro rest w
  cases d <;> cases kind <;> simp [Dialect.intType]

theorem shows_property {accessor : BuiltinProperty} (h : obj.Shows cx)
    (hc : property d accessor obj = .ok code) :
    cx.Shows (bareOf (propertyNames d accessor) ++ cx.bareNames obj.expr) code := by
  cases accessor with
  | signExtendByte | lowByte => exact shows_cast (shows_intType d _) h hc
  | stringLength =>
      cases d <;>
      · obtain ⟨inner, hinner, hc⟩ := Result.bind_eq_ok.mp hc
        obtain rfl := Except.ok.inj hc
        intro rest w
        simp [propertyNames, Code.parenthesized, (h.parenthesized hinner).mem, or_assoc]

theorem shows_binary {op : BinaryOp} (h : left.Shows cx) (h' : right.Shows cx)
    (hc : binary d op left right = .ok code) :
    cx.Shows (bareOf (comparisonNames d op left.expr.ty right.expr.ty) ++
      (cx.bareNames left.expr ++ cx.bareNames right.expr)) code := by
  unfold binary at hc
  unfold comparisonNames
  by_cases hstrings : (op = .eq ∨ op = .notEq) ∧ comparesStrings left.expr.ty right.expr.ty = true
  · rw [if_pos hstrings] at hc ⊢
    obtain ⟨first, hfirst, hc⟩ := Result.bind_eq_ok.mp hc
    obtain ⟨second, hsecond, hc⟩ := Result.bind_eq_ok.mp hc
    have hargs := (Context.shows_commaSeparated
      (.cons (h first hfirst) (.cons (h' second hsecond) .nil))).parenthesized
    cases d with
    | standard =>
        obtain rfl := Except.ok.inj hc
        intro rest w
        split_ifs <;> simp [Code.operator, hargs.mem, or_assoc]
    | openCL =>
        obtain rfl := Except.ok.inj hc
        intro rest w
        split_ifs <;> simp [hargs.mem, or_assoc]
  · rw [if_neg hstrings] at hc ⊢
    exact h.infixed h' hc

theorem shows_elementSize (h : obj.Shows cx) (hc : elementSize obj = .ok code) :
    cx.Shows (.word "sizeof" :: cx.bareNames obj.expr) code := by
  obtain ⟨inner, hinner, hc⟩ := Result.bind_eq_ok.mp hc
  obtain rfl := Except.ok.inj hc
  intro rest w
  simp [Code.parenthesized, (h.atLeast hinner).mem,
    or_assoc]

/-- The array of a copy or of a clearing is printed more than once. -/
theorem shows_arrayMethod {m : BuiltinMethod} {es : List Expr}
    (hm : m = .arrayCopyTo ∨ m = .arrayClear) (h : obj.Shows cx) (hargs : ∀ o ∈ args, o.Shows cx)
    (hc : arrayMethod cx d obj m args = .ok code) :
    cx.Shows (bareOf (methodNames d es m) ++
      (cx.bareNames obj.expr ++ args.flatMap fun o => cx.bareNames o.expr)) code := by
  unfold arrayMethod at hc
  split at hc
  case h_1 start target targetStart length =>
    obtain ⟨destination, hdestination, hc⟩ := Result.bind_eq_ok.mp hc
    obtain ⟨source, hsource, hc⟩ := Result.bind_eq_ok.mp hc
    obtain ⟨count, hcount, hc⟩ := Result.bind_eq_ok.mp hc
    obtain ⟨size, hsize, hc⟩ := Result.bind_eq_ok.mp hc
    obtain rfl := Except.ok.inj hc
    simp only [List.forall_mem_cons] at hargs
    obtain ⟨hstart, htarget, htargetStart, hlength, -⟩ := hargs
    have hto := htarget.infixed htargetStart hdestination
    have hfrom := h.infixed hstart hsource
    have hbytes := (hlength.atLeast hcount).append
      ((Context.shows_operator "*" (by decide)).append (shows_elementSize h hsize))
    have hall := (Context.shows_commaSeparated
      (.cons hto (.cons hfrom (.cons hbytes .nil)))).parenthesized.supplied "memmove"
        (.header .string)
    rw [List.append_assoc]
    refine hall.congr fun n => ?_
    simp [methodNames]
    tauto
  case h_2 =>
    split at hc
    case h_1 length _ =>
      obtain ⟨target, htarget, hc⟩ := Result.bind_eq_ok.mp hc
      obtain ⟨size, hsize, hc⟩ := Result.bind_eq_ok.mp hc
      obtain rfl := Except.ok.inj hc
      have hbytes : cx.Shows (.word "sizeof" :: cx.bareNames obj.expr)
          (.number (toString length.toNat) :: Code.operator "*" ++ size) := fun rest w => by
        simp [Code.operator, (shows_elementSize h hsize).mem]
      have hzero : cx.Shows [] [.number "0"] := fun rest w => by simp
      have hall := (Context.shows_commaSeparated
        (.cons (h target htarget) (.cons hzero (.cons hbytes .nil)))).parenthesized.supplied
          "memset" (.header .string)
      refine hall.congr fun n => ?_
      simp [methodNames]
      tauto
    case h_2 => simp [Context.unsupported] at hc
  case h_3 => simp [Context.unmappedMethod] at hc

/-- A built-in method that does not print. -/
theorem shows_builtinCall {receiver : Option Operand} {m : BuiltinMethod}
    (hreceiver : ∀ o ∈ receiver, o.Shows cx) (hargs : ∀ o ∈ args, o.Shows cx)
    (hc : builtinCall cx d receiver m args = .ok code) :
    cx.Shows (bareOf (methodNames d (args.map Operand.expr) m) ++
      ((receiver.toList ++ args).flatMap fun o => cx.bareNames o.expr)) code := by
  unfold builtinCall at hc
  split at hc
  case h_1 obj factor divisor =>
    simp only [List.forall_mem_cons] at hargs
    obtain ⟨product, hproduct, hc⟩ := Result.bind_eq_ok.mp hc
    obtain ⟨times, hfactor, hc⟩ := Result.bind_eq_ok.mp hc
    obtain ⟨divided, hdivisor, hc⟩ := Result.bind_eq_ok.mp hc
    obtain rfl := Except.ok.inj hc
    have hproduct := shows_cast (shows_intType d .long) (hreceiver obj rfl) hproduct
    have htimes := hargs.1.atLeast hfactor
    have hdivided := hargs.2.1.above hdivisor
    intro rest w
    simp [methodNames, Code.parenthesized, Code.operator, hproduct.mem, htimes.mem, hdivided.mem,
      or_and_right, exists_or, or_assoc]
  case h_2 obj position =>
    simp only [List.forall_mem_cons] at hargs
    exact ((hreceiver obj rfl).indexed hargs.1 hc).of_eq (by simp [methodNames])
  case h_3 | h_4 => simp [Context.unmappedMethod] at hc
  case h_5 obj => exact shows_arrayMethod (.inl rfl) (hreceiver obj rfl) hargs hc
  case h_6 obj => exact shows_arrayMethod (.inr rfl) (hreceiver obj rfl) hargs hc
  case h_7 value =>
    obtain ⟨inner, hinner, hc⟩ := Result.bind_eq_ok.mp hc
    obtain rfl := Except.ok.inj hc
    have hinner := Operand.shows_arguments hargs hinner
    cases hfloat : value.expr.ty.isFloating with
    | true => simpa [methodNames, hfloat] using hinner.supplied "fabs" (.header .math)
    | false => simpa [methodNames, hfloat] using hinner.supplied "abs" (.header .stdlib)
  case h_8 value =>
    obtain ⟨inner, hinner, hc⟩ := Result.bind_eq_ok.mp hc
    obtain rfl := Except.ok.inj hc
    exact (Operand.shows_arguments hargs hinner).supplied "sqrt" (.header .math)
  case h_9 => simp [Context.unsupported] at hc

/-- A value is cast before it is printed if it is a 64-bit integer of standard C. -/
theorem shows_printedValue {value : Operand} (h : value.Shows cx)
    (hc : printedValue d value = .ok code) :
    cx.Shows
      ((if d.longCast.isSome ∧ value.expr.ty = .int .long then [BareName.word "long"] else []) ++
      cx.bareNames value.expr) code := by
  unfold printedValue at hc
  cases d with
  | standard =>
      simp only [Dialect.longCast] at hc ⊢
      split_ifs at hc with hlong
      · obtain ⟨inner, hinner, hc⟩ := Result.bind_eq_ok.mp hc
        obtain rfl := Except.ok.inj hc
        intro rest w
        simp [hlong, Code.parenthesized, (h.atLeast hinner).mem, or_assoc]
      · simpa [hlong] using h.atLeast hc
  | openCL => simpa [Dialect.longCast] using h.atLeast hc

theorem shows_printfCall {format : String} {values : List Operand} {names : List BareName}
    (hnames : names = .fixed (.supplied "printf" (.header .stdio)) ::
      if d.longCast.isSome ∧ .int .long ∈ values.map (·.expr.ty) then [.word "long"] else [])
    (h : ∀ o ∈ values, o.Shows cx) (hc : printfCall d format values = .ok code) :
    cx.Shows (names ++ values.flatMap fun o => cx.bareNames o.expr) code := by
  obtain ⟨pieces, hpieces, hc⟩ := Result.bind_eq_ok.mp hc
  obtain rfl := Except.ok.inj hc
  have hvalues := Operand.forall₂_mapM (f := fun o => (if d.longCast.isSome ∧
    o.expr.ty = .int .long then [BareName.word "long"] else []) ++ cx.bareNames o.expr)
    (fun o ho _ => shows_printedValue (h o ho)) hpieces
  have hformat : cx.Shows [] [.quoted format] := fun rest w => by simp
  have hall := (Context.shows_commaSeparated (.cons hformat hvalues)).parenthesized.supplied
    "printf" (.header .stdio)
  refine hall.congr fun n => ?_
  subst hnames
  simp only [List.flatten_cons, List.nil_append, ← List.flatMap_def, List.cons_append,
    List.mem_cons, List.mem_append, List.mem_flatMap, List.mem_ite_nil_right, List.mem_map]
  grind

theorem shows_print (ht : cx.target = .cFamily d) {es : List Expr} {lineEnd : String}
    (h : ∀ e ∈ Context.spread es, (cx.operand e).Shows cx)
    (hc : print cx d lineEnd (cx.shown es) = .ok code) :
    cx.Shows (bareOf (methodNames d es .consoleWrite) ++
      (Context.spread es).flatMap cx.bareNames) code := by
  have hvalues : ∀ o ∈ (Context.spread es).map cx.operand, o.Shows cx := by simpa using h
  have hnames : bareOf (methodNames d es .consoleWrite) =
      .fixed (.supplied "printf" (.header .stdio)) ::
        if d.longCast.isSome ∧ .int .long ∈ printedTypes es then [.word "long"] else [] := by
    unfold bareOf methodNames
    split_ifs <;> rfl
  have hnone : ∀ o ∈ ([] : List Operand), o.Shows cx := by simp
  rcases es with _ | ⟨e, _ | ⟨second, rest⟩⟩
  · exact shows_printfCall hnames hnone hc
  · rcases shown_cases cx e with ⟨parts, suffix, ty, rfl⟩ | ⟨text, ty, rfl⟩ |
      ⟨htext, hshown, htypes, hspread⟩
    · obtain ⟨formats, -, hc⟩ := Result.bind_eq_ok.mp hc
      have hholes : (cx.holes parts).map Prod.snd = (parts.map Part.arg).map cx.operand := by
        simp [Context.holes_eq, Function.comp_def]
      rw [hholes] at hc
      have hall := shows_printfCall
        (by simpa [printedTypes, Context.operand, Context.spread] using hnames) hvalues hc
      exact hall.of_eq (by simp [Context.operand, List.flatMap_map])
    · have hown : cx.bareNames (.literal (.str text) ty) = [] := by
        simp [Context.bareNames_eq, Context.bareOwn, ht, bareOwn, own, Context.printedChildren,
          Expr.children]
      have hall := shows_printfCall hnames hnone hc
      exact hall.of_eq (by simp [Context.spread, hown])
    · rw [hshown] at hc
      simp only [print] at hc
      split at hc
      case h_1 text ty hliteral => exact absurd hliteral (htext text ty)
      case h_2 =>
        obtain ⟨format, -, hc⟩ := Result.bind_eq_ok.mp hc
        rw [hspread] at hvalues
        have hall := shows_printfCall (by simpa [htypes, Context.operand] using hnames) hvalues hc
        exact hall.of_eq (by simp [hspread, Context.operand])
  · simp [print_many, Context.unsupported] at hc

/-- A call that prints has no receiver. -/
theorem shows_printCall (ht : cx.target = .cFamily d) {receiver : Option Operand}
    {m : BuiltinMethod} {es : List Expr} {lineEnd : String}
    (h : ∀ e ∈ Context.spread es, (cx.operand e).Shows cx)
    (hc : printCall cx d receiver m lineEnd (cx.shown es) = .ok code) :
    receiver = none ∧ cx.Shows (bareOf (methodNames d es .consoleWrite) ++
      (Context.spread es).flatMap cx.bareNames) code := by
  cases receiver with
  | none => exact ⟨rfl, shows_print ht h hc⟩
  | some obj => simp [printCall, Context.unsupported] at hc

theorem shows_instanceArgument {receiver : Option Operand} (h : ∀ o ∈ receiver, o.Shows cx)
    (hc : instanceArgument receiver = .ok code) :
    cx.Shows (match receiver with
      | none => [.word "self"]
      | some obj => cx.bareNames obj.expr) code := by
  cases receiver with
  | none =>
      obtain rfl := Except.ok.inj hc
      exact Context.shows_nil.word "self"
  | some obj =>
      simp only [instanceArgument] at hc
      split at hc
      · obtain ⟨inner, hinner, hc⟩ := Result.bind_eq_ok.mp hc
        obtain rfl := Except.ok.inj hc
        intro rest w
        simp [((h obj rfl).atLeast hinner).mem]
      · exact h obj rfl code hc

/-- The receiver of a static function is not printed. -/
theorem shows_userCall {receiver : Option Operand} {owner : ClassId} {name : String}
    {isStatic : Bool} (hreceiver : isStatic = false → ∀ o ∈ receiver, o.Shows cx)
    (hargs : ∀ o ∈ args, o.Shows cx)
    (hc : userCall cx receiver owner name isStatic args = .ok code) :
    cx.Shows ((.function owner name ::
        if !isStatic && receiver.isNone then [BareName.word "self"] else []) ++
      ((if isStatic then [] else receiver.toList) ++ args).flatMap fun o => cx.bareNames o.expr)
        code := by
  obtain ⟨c, self, rest, hclass, hself, hrest, rfl⟩ := userCall_eq_ok hc
  have hname : functionName c.name name = (BareName.function owner name).text cx := by
    simp [className_of_classOf hclass]
  have hrest := Operand.forall₂_mapM (fun o ho _ => (hargs o ho).atLeast) hrest
  have hcall : ∀ {namess : List (List BareName)}, List.Forall₂ cx.Shows namess (self ++ rest) →
      cx.Shows (.function owner name :: namess.flatten) (.word (functionName c.name name) ::
        Code.parenthesized (Code.commaSeparated (self ++ rest))) := fun h rest w => by
    rw [hname]
    simp [(Context.shows_commaSeparated h).parenthesized.mem, or_assoc]
  cases isStatic with
  | true =>
      obtain rfl := hself
      exact (hcall hrest).of_eq (by simp [List.flatMap_def])
  | false =>
      obtain ⟨first, hfirst, rfl⟩ := hself
      have hfirst := shows_instanceArgument (hreceiver rfl) hfirst
      refine (hcall (.cons hfirst hrest)).of_eq ?_
      cases receiver <;> simp [List.flatMap_def]

theorem shows_resource (ht : cx.target = .cFamily d) {name : String}
    (hc : resource cx name = .ok code) :
    cx.Shows (bareOf (PrintedName.ifPresent cx.program (.resource name))) code := by
  unfold resource at hc
  split_ifs at hc with hfound
  · obtain rfl := Except.ok.inj hc
    refine Context.shows_of_names ht ?_ ?_ <;>
      simp [PrintedName.ifPresent, PrintedName.isPresent, hfound, Lexeme.text, BareName.ofPrinted?]
  · simp [Context.unsupported] at hc

end CFamily

namespace ActionScript

variable {cx : Context} {obj left right : Operand} {args : List Operand} {code : Code}

theorem shows_truth (ht : cx.target = .actionScript) (b : Bool) :
    cx.Shows [.word (if b then "true" else "false")] (cx.truth b) := by
  simpa [Context.truth, ht] using Context.shows_nil.word _

theorem shows_float (ht : cx.target = .actionScript) {x : Binary64} (hc : cx.float x = .ok code) :
    cx.Shows (floatNames x) code := by
  simp only [Context.float, ht] at hc
  unfold floatNames
  split_ifs at hc ⊢ <;> obtain rfl := Except.ok.inj hc
  · exact Context.shows_nil.word "NaN"
  · exact fun rest w => by simp
  · exact Context.shows_nil.word "Infinity"
  · exact Context.shows_finiteFloat x

theorem shows_literal (ht : cx.target = .actionScript) {value : Literal}
    (hc : cx.literal value = .ok code) : cx.Shows (literalNames value) code := by
  cases value with
  | float x => exact shows_float ht hc
  | int n =>
      obtain rfl := Except.ok.inj hc
      exact Context.shows_integer n.toInt
  | str s =>
      obtain rfl := Except.ok.inj hc
      exact fun rest w => by simp [literalNames]
  | bool b =>
      obtain rfl := Except.ok.inj hc
      exact shows_truth ht b
  | null =>
      obtain rfl := Except.ok.inj hc
      simpa [Context.null, ht, literalNames] using Context.shows_nil.word "null"

theorem shows_enumValue (ht : cx.target = .actionScript) {id : EnumId} {index : UInt64}
    (hc : cx.enumValue id index = .ok code) : cx.Shows [.enumeration id] code := by
  obtain ⟨e, he, hc⟩ := Result.bind_eq_ok.mp hc
  have hname : cx.program.enumName id = e.name := by
    simp [Program.enumName, Context.enumOf_eq_ok he]
  split at hc
  · simp [Context.unsupported] at hc
  · simp only [ht] at hc
    obtain rfl := Except.ok.inj hc
    intro rest w
    simp [hname]

mutual

theorem shows_constValue (ht : cx.target = .actionScript) : ∀ (value : ConstValue) {code : Code},
    cx.constValue value = .ok code → cx.Shows (valueNames value) code
  | .int n, code, hc => by
      obtain rfl := Except.ok.inj hc
      exact Context.shows_integer n.toInt
  | .float x, code, hc => shows_float ht hc
  | .bool b, code, hc => by
      obtain rfl := Except.ok.inj hc
      exact shows_truth ht b
  | .str s, code, hc => by
      obtain rfl := Except.ok.inj hc
      exact fun rest w => by simp [valueNames]
  | .enumValue id index, code, hc => shows_enumValue ht hc
  | .array items, code, hc => by
      obtain ⟨pieces, hpieces, hc⟩ := Result.bind_eq_ok.mp hc
      obtain rfl := Except.ok.inj hc
      obtain ⟨namess, hitems, hnames⟩ := shows_constItems ht items hpieces
      intro rest w
      simp [Context.table, ht, (Context.shows_commaSeparated hitems).mem, hnames, valueNames]

theorem shows_constItems (ht : cx.target = .actionScript) :
    ∀ (items : List ConstValue) {pieces : List Code}, cx.constItems items = .ok pieces →
      ∃ namess, List.Forall₂ cx.Shows namess pieces ∧ namess.flatten = itemNames items
  | [], pieces, hc => by
      obtain rfl := Except.ok.inj hc
      exact ⟨[], .nil, rfl⟩
  | item :: rest, pieces, hc => by
      obtain ⟨first, hfirst, hc⟩ := Result.bind_eq_ok.mp hc
      obtain ⟨others, hothers, hc⟩ := Result.bind_eq_ok.mp hc
      obtain rfl := Except.ok.inj hc
      obtain ⟨namess, hrest, hnames⟩ := shows_constItems ht rest hothers
      exact ⟨_, .cons (shows_constValue ht item hfirst) hrest, by simp [hnames, itemNames]⟩

end

/-- A member of a class behind the class's name, which is left out in the class itself. -/
theorem shows_classPrefix {id : ClassId} {name : BareName} (hc : classPrefix cx id = .ok code) :
    cx.Shows [if cx.current = some id then name else .type id]
      (code ++ [Lexeme.word (name.text cx)]) := by
  unfold classPrefix at hc
  split_ifs at hc ⊢
  · obtain rfl := Except.ok.inj hc
    exact fun rest w => by simp
  · obtain ⟨c, hclass, hc⟩ := Result.bind_eq_ok.mp hc
    obtain rfl := Except.ok.inj hc
    exact fun rest w => by simp [CFamily.className_of_classOf hclass]

theorem shows_constant (ht : cx.target = .actionScript) {owner : ClassId} {name : String}
    (hc : constant cx owner name = .ok code) : cx.Shows (constantNames cx owner name) code := by
  obtain ⟨c, hclass, hc⟩ := Result.bind_eq_ok.mp hc
  have hclass : cx.program.classes[owner.index.toNat]? = some c := Context.classOf_eq_ok hclass
  have hinlined : cx.inlined? owner name =
      c.consts.find? fun k => k.name = name && k.visibility ≠ .exported := by
    simp [Context.inlined?, Context.class?, ht, hclass]
  split at hc
  case h_1 k hk =>
    obtain ⟨value, hvalue, hc⟩ := Result.bind_eq_ok.mp hc
    obtain rfl := Except.ok.inj hc
    have hvalue := shows_constValue ht _ hvalue
    have hnames : constantNames cx owner name = valueNames k.value := by
      simp only [constantNames, hinlined, hk]
    rw [hnames]
    split_ifs
    · exact hvalue.parenthesized
    · exact hvalue
  case h_2 hk =>
    obtain ⟨qualifier, hqualifier, hc⟩ := Result.bind_eq_ok.mp hc
    obtain rfl := Except.ok.inj hc
    have hemitted : cx.program.emittedName owner name =
        ((c.findConst name).map ConstDef.emittedName).getD name := by
      simp [Program.emittedName, hclass]
    have hnames : constantNames cx owner name =
        [if cx.current = some owner then .constant owner name else .type owner] := by
      simp only [constantNames, hinlined, hk]
    rw [← hemitted, ← BareName.text_constant_of_actionScript ht, hnames]
    exact shows_classPrefix hqualifier

theorem shows_field {name : String} (h : obj.Shows cx) (hc : field cx obj name = .ok code) :
    cx.Shows (cx.bareNames obj.expr) code := by
  obtain ⟨base, hbase, hc⟩ := Result.bind_eq_ok.mp hc
  obtain rfl := Except.ok.inj hc
  intro rest w
  simp [Context.localWord, (h.atLeast hbase).mem]

theorem shows_quotient (h : left.Shows cx) (h' : right.Shows cx)
    (hc : quotient left right = .ok code) :
    cx.Shows (.word "int" :: (cx.bareNames left.expr ++ cx.bareNames right.expr)) code := by
  obtain ⟨inner, hinner, hc⟩ := Result.bind_eq_ok.mp hc
  obtain rfl := Except.ok.inj hc
  simpa [Code.parenthesized] using (h.infixed h' hinner).parenthesized.word "int"

theorem shows_binary {op : BinaryOp} {ty : Ty} (h : left.Shows cx) (h' : right.Shows cx)
    (hc : binary op ty left right = .ok code) :
    cx.Shows ((if op = .div ∧ ty.isInteger then [BareName.word "int"] else []) ++
      (cx.bareNames left.expr ++ cx.bareNames right.expr)) code := by
  unfold binary at hc
  split_ifs at hc ⊢
  · exact shows_quotient h h' hc
  · exact h.infixed h' hc

theorem shows_property {accessor : BuiltinProperty} (h : obj.Shows cx)
    (hc : property accessor obj = .ok code) : cx.Shows (cx.bareNames obj.expr) code := by
  cases accessor <;>
  · obtain ⟨base, hbase, hc⟩ := Result.bind_eq_ok.mp hc
    obtain rfl := Except.ok.inj hc
    intro rest w
    simp [Code.operator, (h.atLeast hbase).mem]

theorem shows_helperCall {helper : Helper} {name : String} (hargs : ∀ o ∈ args, o.Shows cx)
    (hc : helperCall helper name args = .ok code) :
    cx.Shows (.word "Ci" :: args.flatMap fun o => cx.bareNames o.expr) code := by
  obtain ⟨inner, hinner, hc⟩ := Result.bind_eq_ok.mp hc
  obtain rfl := Except.ok.inj hc
  intro rest w
  simp [(Operand.shows_arguments hargs hinner).mem, or_assoc]

theorem shows_mathCall {name : String} (hargs : ∀ o ∈ args, o.Shows cx)
    (hc : mathCall name args = .ok code) :
    cx.Shows (.word "Math" :: args.flatMap fun o => cx.bareNames o.expr) code := by
  obtain ⟨inner, hinner, hc⟩ := Result.bind_eq_ok.mp hc
  obtain rfl := Except.ok.inj hc
  intro rest w
  simp [(Operand.shows_arguments hargs hinner).mem, or_assoc]

/-- A built-in method of a receiver. -/
theorem shows_method {m : BuiltinMethod} (h : obj.Shows cx) (hargs : ∀ o ∈ args, o.Shows cx)
    (hc : method cx obj m args = .ok code) :
    cx.Shows (methodNames (args.map Operand.expr) m ++
      (obj :: args).flatMap fun o => cx.bareNames o.expr) code := by
  unfold method at hc
  split at hc
  case h_1 factor divisor =>
    simp only [List.forall_mem_cons] at hargs
    obtain ⟨product, hproduct, hc⟩ := Result.bind_eq_ok.mp hc
    obtain ⟨times, hfactor, hc⟩ := Result.bind_eq_ok.mp hc
    obtain ⟨divided, hdivisor, hc⟩ := Result.bind_eq_ok.mp hc
    obtain rfl := Except.ok.inj hc
    intro rest w
    simp [methodNames, Code.operator, (h.atLeast hproduct).mem, (hargs.1.atLeast hfactor).mem,
      (hargs.2.1.above hdivisor).mem, or_and_right, exists_or, or_assoc]
  case h_2 position =>
    simp only [List.forall_mem_cons] at hargs
    obtain ⟨base, hbase, hc⟩ := Result.bind_eq_ok.mp hc
    obtain ⟨inner, hinner, hc⟩ := Result.bind_eq_ok.mp hc
    obtain rfl := Except.ok.inj hc
    intro rest w
    simp [methodNames, (h.atLeast hbase).mem, (hargs.1 inner hinner).parenthesized.mem,
      or_and_right, exists_or, or_assoc]
  case h_3 start length =>
    unfold substring at hc
    cases heffect : start.expr.hasSideEffect with
    | true =>
        simp only [heffect, if_true] at hc
        have hall : ∀ o ∈ [obj, start, length], o.Shows cx := List.forall_mem_cons.mpr ⟨h, hargs⟩
        exact (shows_helperCall hall hc).of_eq (by simp [methodNames, heffect])
    | false =>
        simp only [List.forall_mem_cons] at hargs
        simp only [heffect, Bool.false_eq_true, if_false] at hc
        obtain ⟨receiver, hreceiver, hc⟩ := Result.bind_eq_ok.mp hc
        obtain ⟨first, hfirst, hc⟩ := Result.bind_eq_ok.mp hc
        obtain ⟨last, hlast, hc⟩ := Result.bind_eq_ok.mp hc
        obtain rfl := Except.ok.inj hc
        -- The start is printed twice.
        have hrange := (Context.shows_commaSeparated (.cons (hargs.1.atLeast hfirst)
          (.cons (hargs.1.infixed hargs.2.1 hlast) .nil))).parenthesized
        have hplace : cx.Shows (cx.bareNames obj.expr)
            (receiver ++ [Lexeme.symbol ".", Lexeme.word "substring"]) := fun rest w => by
          simp [(h.atLeast hreceiver).mem]
        refine (hplace.append hrange).congr fun n => ?_
        simp [methodNames, heffect]
  case h_4 | h_5 =>
    have hall := shows_helperCall (List.forall_mem_cons.mpr ⟨h, hargs⟩) hc
    exact hall.of_eq (by simp [methodNames])
  case h_6 =>
    obtain ⟨inner, hinner, hc⟩ := Result.bind_eq_ok.mp hc
    obtain rfl := Except.ok.inj hc
    intro rest w
    simp [methodNames, (h.parenthesized hinner).mem, or_assoc]
  case h_7 => simp [Context.unsupported] at hc

theorem shows_builtinCall (ht : cx.target = .actionScript) {receiver : Option Expr}
    {m : BuiltinMethod} {es : List Expr}
    (h : ∀ e ∈ receiver.toList ++ cx.printedArgs m es, (cx.operand e).Shows cx)
    (hc : builtinCall cx (receiver.map cx.operand) m (es.map cx.operand) = .ok code) :
    cx.Shows (methodNames es m ++
      (receiver.toList ++ cx.printedArgs m es).flatMap cx.bareNames) code := by
  have hexprs : (es.map cx.operand).map Operand.expr = es := by
    simp [Context.operand, Function.comp_def]
  cases receiver with
  | some obj =>
      have hm : m ≠ .consoleWrite ∧ m ≠ .consoleWriteLine := by
        constructor <;> rintro rfl <;>
          simp [builtinCall, method, Context.unmappedMethod, Context.unsupported] at hc
      have hc : method cx (cx.operand obj) m (es.map cx.operand) = .ok code := by
        cases m <;> first | exact hc | exact absurd rfl hm.1
      rw [Context.printedArgs_eq hm] at h ⊢
      have hargs : ∀ o ∈ es.map cx.operand, o.Shows cx := by
        simpa using fun e he => h e (by simp [he])
      have hall := shows_method (h obj (by simp)) hargs hc
      rw [hexprs] at hall
      exact hall.of_eq (by simp [List.flatMap_map, Context.operand])
  | none =>
      cases m with
      | consoleWriteLine =>
          have hprinted : cx.printedArgs .consoleWriteLine es = es.take 1 := by
            simp [Context.printedArgs, Context.takesFirst, ht]
          rw [hprinted] at h ⊢
          cases es with
          | nil =>
              obtain rfl := Except.ok.inj hc
              exact fun rest w => by simp [methodNames, Code.parenthesized]
          | cons e rest =>
              obtain ⟨shown, hshown, hc⟩ := Result.bind_eq_ok.mp hc
              obtain rfl := Except.ok.inj hc
              have he := (h e (by simp) shown hshown).parenthesized.word "trace"
              exact he.of_eq (by simp [methodNames, Context.operand])
      | mathAbs | mathSqrt =>
          rw [Context.printedArgs_eq (by decide)] at h ⊢
          have hargs : ∀ o ∈ es.map cx.operand, o.Shows cx := by simpa using h
          exact (shows_mathCall hargs hc).of_eq
            (by simp [methodNames, List.flatMap_map, Context.operand])
      | _ => simp [builtinCall, Context.unmappedMethod, Context.unsupported] at hc

theorem shows_userCall {receiver : Option Operand} {owner : ClassId} {name : String}
    {isStatic : Bool} (hreceiver : ∀ o ∈ receiver, o.Shows cx) (hargs : ∀ o ∈ args, o.Shows cx)
    (hc : userCall cx receiver owner name isStatic args = .ok code) :
    cx.Shows ((if receiver.isSome then []
      else [if isStatic ∧ cx.current ≠ some owner then BareName.type owner else .method name]) ++
        (receiver.toList ++ args).flatMap fun o => cx.bareNames o.expr) code := by
  obtain ⟨qualifier, inner, hinner, rfl, hqualifier⟩ := userCall_eq_ok hc
  have hinner := Operand.shows_arguments hargs hinner
  have hword :
      qualifier ++ cx.localWord name :: inner = qualifier ++ [cx.localWord name] ++ inner :=
    by simp
  rw [hword]
  cases receiver with
  | some obj =>
      obtain ⟨base, hbase, rfl⟩ := hqualifier
      have hplace :
          cx.Shows (cx.bareNames obj.expr) (base ++ [Lexeme.symbol "."] ++ [cx.localWord name]) :=
        fun rest w => by simp [Context.localWord, ((hreceiver obj rfl).atLeast hbase).mem]
      exact (hplace.append hinner).of_eq (by simp)
  | none =>
      dsimp only at hqualifier
      have hplace : cx.Shows
          [if isStatic ∧ cx.current ≠ some owner then .type owner else .method name]
            (qualifier ++ [cx.localWord name]) := by
        cases isStatic with
        | true =>
            have hshows : cx.Shows [if cx.current = some owner then .method name else .type owner]
                (qualifier ++ [cx.localWord name]) := shows_classPrefix hqualifier
            refine hshows.of_eq ?_
            by_cases hcurrent : cx.current = some owner <;> simp [hcurrent]
        | false =>
            obtain rfl := hqualifier
            exact fun rest w => by simp [Context.localWord]
      exact (hplace.append hinner).of_eq (by simp)

theorem shows_interpolatedTail {first : Bool} {holes : List (Hole × Operand)}
    (h : ∀ hole ∈ holes, hole.2.Shows cx) (hc : interpolatedTail cx first holes = .ok code) :
    cx.Shows (holes.flatMap fun hole => cx.bareNames hole.2.expr) code := by
  induction holes generalizing first code with
  | nil =>
      obtain rfl := Except.ok.inj hc
      exact Context.shows_nil
  | cons hole rest ih =>
      obtain ⟨hhole, hrest⟩ := List.forall_mem_cons.mp h
      obtain ⟨shown, others, hshown, hothers, rfl⟩ := interpolatedTail_cons_eq_ok hc
      have hshown := hhole.above hshown
      have hothers := ih hrest hothers
      intro rest w
      split_ifs <;> simp [Code.operator, hshown.mem, hothers.mem, or_and_right, exists_or, or_assoc]

theorem shows_interpolated {holes : List (Hole × Operand)} {suffix : String}
    (h : ∀ hole ∈ holes, hole.2.Shows cx) (hc : interpolated cx holes suffix = .ok code) :
    cx.Shows (holes.flatMap fun hole => cx.bareNames hole.2.expr) code := by
  obtain ⟨chain, hchain, hc⟩ := Result.bind_eq_ok.mp hc
  have hall := shows_interpolatedTail h hchain
  split_ifs at hc with hempty hsuffix
  · obtain rfl := Except.ok.inj hc
    obtain rfl := List.isEmpty_iff.mp hempty
    exact fun rest w => by simp
  · obtain rfl := Except.ok.inj hc
    exact fun rest w => by simp [Code.operator, hall.mem]
  · obtain rfl := Except.ok.inj hc
    exact hall

end ActionScript

namespace Context

variable {cx : Context} {code : Code}

/-- An expression without printed operands. -/
theorem shows_leaf {names : List BareName} {e : Expr} (h : cx.Shows names code)
    (hchildren : cx.printedChildren e = []) :
    cx.Shows (names ++ (cx.printedChildren e).flatMap cx.bareNames) code :=
  h.of_eq (by simp [hchildren])

theorem shows_index {array position : Expr} {ty : Ty}
    (h : ∀ child ∈ cx.printedChildren (.index array position ty), (cx.operand child).Shows cx)
    (hc : cx.code (.index array position ty) = .ok code) :
    cx.Shows ((cx.printedChildren (.index array position ty)).flatMap cx.bareNames) code := by
  simp only [printedChildren, Expr.children, List.forall_mem_cons] at h
  exact (h.1.indexed h.2.1 hc).of_eq (by simp [printedChildren, Expr.children, operand])

theorem shows_unary {op : UnaryOp} {inner : Expr} {ty : Ty}
    (h : ∀ child ∈ cx.printedChildren (.unary op inner ty), (cx.operand child).Shows cx)
    (hc : cx.code (.unary op inner ty) = .ok code) :
    cx.Shows ((cx.printedChildren (.unary op inner ty)).flatMap cx.bareNames) code := by
  simp only [printedChildren, Expr.children, List.forall_mem_cons] at h
  exact (h.1.unary hc).of_eq (by simp [printedChildren, Expr.children, operand])

theorem shows_select {cond onTrue onFalse : Expr} {ty : Ty}
    (h : ∀ child ∈ cx.printedChildren (.select cond onTrue onFalse ty),
      (cx.operand child).Shows cx)
    (hc : cx.code (.select cond onTrue onFalse ty) = .ok code) :
    cx.Shows ((cx.printedChildren (.select cond onTrue onFalse ty)).flatMap cx.bareNames)
      code := by
  simp only [printedChildren, Expr.children, List.forall_mem_cons] at h
  exact (h.1.selected h.2.1 h.2.2.1 hc).of_eq (by simp [printedChildren, Expr.children, operand])

theorem shows_code_of_actionScript (ht : cx.target = .actionScript) {e : Expr}
    (h : ∀ child ∈ cx.printedChildren e, (cx.operand child).Shows cx) (hc : cx.code e = .ok code) :
    cx.Shows (ActionScript.bareOwn cx e ++ (cx.printedChildren e).flatMap cx.bareNames) code := by
  cases e with
  | literal value ty => exact shows_leaf (ActionScript.shows_literal ht hc) rfl
  | var name ty =>
      obtain rfl := Except.ok.inj hc
      exact shows_leaf (fun rest w => by simp [ActionScript.bareOwn, localWord]) rfl
  | this ty =>
      obtain rfl := Except.ok.inj hc
      exact shows_leaf (fun rest w => by simp [ActionScript.bareOwn, this, ht]) rfl
  | const owner name ty =>
      change cx.constant owner name = _ at hc
      simp only [constant, ht] at hc
      exact shows_leaf (ActionScript.shows_constant ht hc) rfl
  | enumValue id index ty => exact shows_leaf (ActionScript.shows_enumValue ht hc) rfl
  | field obj name ty =>
      change cx.field (cx.operand obj) name = _ at hc
      simp only [field, ht] at hc
      have hobj := h obj (by simp [printedChildren, Expr.children])
      exact (ActionScript.shows_field hobj hc).of_eq
        (by simp [ActionScript.bareOwn, printedChildren, Expr.children, operand])
  | property obj accessor ty =>
      change cx.property accessor (cx.operand obj) = _ at hc
      simp only [property, ht] at hc
      have hobj := h obj (by simp [printedChildren, Expr.children])
      exact (ActionScript.shows_property hobj hc).of_eq
        (by simp [ActionScript.bareOwn, printedChildren, Expr.children, operand])
  | call receiver callee args ty =>
      cases callee with
      | user owner name isStatic =>
          simp only [Context.code, userCall, ht, receiverOperand_eq, operands_eq] at hc
          have hdrops : cx.dropsReceiver isStatic = false := by simp [dropsReceiver, ht]
          simp only [printedChildren, hdrops, Bool.false_eq_true, if_false, List.mem_append] at h ⊢
          have hreceiver : ∀ o ∈ receiver.map cx.operand, o.Shows cx := by
            simpa using fun e he => h e (.inl (Option.mem_toList.mpr he))
          have hargs : ∀ o ∈ args.map cx.operand, o.Shows cx := by
            simpa using fun e he => h e (.inr he)
          have hcall := ActionScript.shows_userCall hreceiver hargs hc
          refine hcall.of_eq ?_
          cases receiver <;> simp [ActionScript.bareOwn, List.flatMap_map, operand]
      | builtin m =>
          simp only [code_builtinCall, ht] at hc
          refine (ActionScript.shows_builtinCall ht h hc).of_eq ?_
          cases receiver <;> rfl
  | index array position ty => exact shows_index h hc
  | unary op inner ty => exact shows_unary h hc
  | binary left op right ty =>
      change cx.binary op ty (cx.operand left) (cx.operand right) = _ at hc
      simp only [binary, ht] at hc
      have hleft := h left (by simp [printedChildren, Expr.children])
      have hright := h right (by simp [printedChildren, Expr.children])
      exact (ActionScript.shows_binary hleft hright hc).of_eq
        (by simp [ActionScript.bareOwn, printedChildren, Expr.children, operand])
  | select cond onTrue onFalse ty => exact shows_select h hc
  | interpolated parts suffix ty =>
      simp only [Context.code, ht, holes_eq] at hc
      have hholes : ∀ hole ∈ parts.map fun part => (part.hole, cx.operand part.arg),
          hole.2.Shows cx := by
        simpa [printedChildren, Expr.children] using h
      exact (ActionScript.shows_interpolated hholes hc).of_eq
        (by simp [ActionScript.bareOwn, printedChildren, Expr.children, operand, List.flatMap_map])
  | resource name ty =>
      change cx.resource name = _ at hc
      simp [resource, ht, unsupported] at hc

theorem shows_code_of_cFamily {d : Dialect} (ht : cx.target = .cFamily d) {e : Expr}
    (h : ∀ child ∈ cx.printedChildren e, (cx.operand child).Shows cx) (hc : cx.code e = .ok code) :
    cx.Shows (CFamily.bareOwn cx d e ++ (cx.printedChildren e).flatMap cx.bareNames) code := by
  cases e with
  | literal value ty => exact shows_leaf (CFamily.shows_literal ht hc) rfl
  | var name ty =>
      obtain rfl := Except.ok.inj hc
      exact shows_leaf (fun rest w => by simp [CFamily.bareOwn, localWord]) rfl
  | this ty =>
      obtain rfl := Except.ok.inj hc
      refine shows_leaf (fun rest w => ?_) rfl
      simp [CFamily.bareOwn, CFamily.own, this, ht]
  | const owner name ty =>
      change cx.constant owner name = _ at hc
      simp only [constant, ht] at hc
      exact shows_leaf (CFamily.shows_constant ht hc) rfl
  | enumValue id index ty => exact shows_leaf (CFamily.shows_enumValue ht hc) rfl
  | field obj name ty =>
      change cx.field (cx.operand obj) name = _ at hc
      simp only [field, ht] at hc
      have hobj := h obj (by simp [printedChildren, Expr.children])
      exact (CFamily.shows_field hobj hc).of_eq
        (by simp [CFamily.bareOwn, CFamily.own, printedChildren, Expr.children, operand])
  | property obj accessor ty =>
      change cx.property accessor (cx.operand obj) = _ at hc
      simp only [property, ht] at hc
      have hobj := h obj (by simp [printedChildren, Expr.children])
      exact (CFamily.shows_property hobj hc).of_eq
        (by simp [CFamily.bareOwn, CFamily.own, printedChildren, Expr.children, operand])
  | call receiver callee args ty =>
      cases callee with
      | user owner name isStatic =>
          simp only [Context.code, userCall, ht, receiverOperand_eq, operands_eq] at hc
          simp only [printedChildren, List.mem_append] at h
          have hdrops : cx.dropsReceiver isStatic = isStatic := by simp [dropsReceiver, ht]
          have hargs : ∀ o ∈ args.map cx.operand, o.Shows cx := by
            simpa using fun e he => h e (.inr he)
          have hreceiver : isStatic = false → ∀ o ∈ receiver.map cx.operand, o.Shows cx := by
            rintro rfl
            simpa using fun e he => h e (.inl (by simpa [hdrops] using he))
          refine (CFamily.shows_userCall hreceiver hargs hc).of_eq ?_
          cases receiver <;> cases isStatic <;>
            simp [printedChildren, hdrops, CFamily.bareOwn, CFamily.own, List.flatMap_map, operand]
      | builtin m =>
          simp only [code_builtinCall, ht] at hc
          have hprinting : ∀ {lineEnd : String}, m = .consoleWrite ∨ m = .consoleWriteLine →
              CFamily.printCall cx d (receiver.map cx.operand) m lineEnd (cx.shown args) =
                .ok code → cx.Shows (CFamily.bareOwn cx d (.call receiver (.builtin m) args ty) ++
                  (cx.printedChildren (.call receiver (.builtin m) args ty)).flatMap
                    cx.bareNames) code := by
            intro lineEnd hm hc
            have hprinted : cx.printedArgs m args = spread args := by
              rcases hm with rfl | rfl <;> simp [printedArgs, takesFirst, ht]
            simp only [printedChildren, hprinted, List.mem_append] at h ⊢
            obtain ⟨hnone, hshows⟩ := CFamily.shows_printCall ht (fun e he => h e (.inr he)) hc
            rw [Option.map_eq_none_iff.mp hnone]
            rcases hm with rfl | rfl <;> exact hshows
          split_ifs at hc with hwrite hline
          · exact hprinting (.inl hwrite) (by rw [hwrite]; exact hc)
          · exact hprinting (.inr hline) (by rw [hline]; exact hc)
          · have hprinted : cx.printedArgs m args = args := printedArgs_eq ⟨hwrite, hline⟩ args
            simp only [printedChildren, hprinted, List.mem_append] at h ⊢
            have hargs : ∀ o ∈ args.map cx.operand, o.Shows cx := by
              simpa using fun e he => h e (.inr he)
            have hreceiver : ∀ o ∈ receiver.map cx.operand, o.Shows cx := by
              simpa using fun e he => h e (.inl (Option.mem_toList.mpr he))
            have hexprs : (args.map cx.operand).map Operand.expr = args := by
              simp [operand, Function.comp_def]
            have hall := CFamily.shows_builtinCall hreceiver hargs hc
            rw [hexprs] at hall
            refine hall.of_eq ?_
            cases receiver <;> simp [CFamily.bareOwn, CFamily.own, List.flatMap_map, operand]
  | index array position ty => exact shows_index h hc
  | unary op inner ty => exact shows_unary h hc
  | binary left op right ty =>
      change cx.binary op ty (cx.operand left) (cx.operand right) = _ at hc
      simp only [binary, ht] at hc
      have hleft := h left (by simp [printedChildren, Expr.children])
      have hright := h right (by simp [printedChildren, Expr.children])
      exact (CFamily.shows_binary hleft hright hc).of_eq
        (by simp [CFamily.bareOwn, CFamily.own, printedChildren, Expr.children, operand])
  | select cond onTrue onFalse ty => exact shows_select h hc
  | interpolated parts suffix ty => simp [Context.code, ht, unsupported] at hc
  | resource name ty =>
      change cx.resource name = _ at hc
      simp only [resource, ht] at hc
      exact shows_leaf (CFamily.shows_resource ht hc) rfl

/-- The bare names in the printed form of an expression are those that are listed for it. -/
theorem shows_code (e : Expr) {code : Code} (hc : cx.code e = .ok code) :
    cx.Shows (cx.bareNames e) code := by
  have hchildren : ∀ child ∈ cx.printedChildren e, (cx.operand child).Shows cx :=
    fun child hchild code hc =>
      have := sizeOf_lt_of_mem_printedChildren hchild
      shows_code child hc
  rw [bareNames_eq, bareOwn]
  cases ht : cx.target with
  | actionScript => exact shows_code_of_actionScript ht hchildren hc
  | cFamily d => exact shows_code_of_cFamily ht hchildren hc
termination_by e

end Context

end Emitter
