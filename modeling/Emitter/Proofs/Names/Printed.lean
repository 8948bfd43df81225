import Emitter.Proofs.Names.Expression

/-!
# Printed expressions have the listed names

Each production prints its own names and those of its operands, and no others. With this for every
form of expression, the names of a printed expression are exactly those that are listed for it.
-/

namespace Emitter

open Layout Number Program Text

/-- The operand has a printed form, with these names in it. -/
def Operand.Names (o : Operand) (ns : List Lexeme) : Prop :=
  ∃ code, o.code = .ok code ∧ code.names = ns

/-- The operands have printed forms, with these names in them. -/
def Operand.NamesAll (os : List Operand) (ns : List Lexeme) : Prop :=
  ∃ nss, List.Forall₂ Operand.Names os nss ∧ nss.flatten = ns

namespace Operand

variable {o left right : Operand} {os os' : List Operand} {ns ms : List Lexeme} {code : Code}

theorem names_code (hc : o.code = .ok code) : o.Names code.names := ⟨code, hc, rfl⟩

theorem names_parenthesized (hc : o.parenthesized = .ok code) : o.Names code.names := by
  obtain ⟨inner, hinner, rfl⟩ := Result.map_eq_ok.mp hc
  exact ⟨inner, hinner, Code.names_parenthesized.symm⟩

theorem names_atLeast {least : Priority} (hc : o.atLeast least = .ok code) :
    o.Names code.names := by
  unfold atLeast at hc
  split_ifs at hc
  · exact names_parenthesized hc
  · exact names_code hc

theorem names_above {bound : Priority} (hc : o.above bound = .ok code) : o.Names code.names := by
  unfold above at hc
  split_ifs at hc
  · exact names_parenthesized hc
  · exact names_code hc

@[simp] theorem namesAll_nil : NamesAll [] ns ↔ ns = [] :=
  ⟨fun h => by
    obtain ⟨nss, hnss, rfl⟩ := h
    cases hnss
    rfl, fun h => ⟨[], .nil, h.symm⟩⟩

theorem NamesAll.cons (h : o.Names ns) (hrest : NamesAll os ms) :
    NamesAll (o :: os) (ns ++ ms) := by
  obtain ⟨nss, hnss, rfl⟩ := hrest
  exact ⟨ns :: nss, .cons h hnss, rfl⟩

theorem Names.all (h : o.Names ns) : NamesAll [o] ns := by
  simpa using NamesAll.cons h (namesAll_nil.mpr rfl)

theorem NamesAll.append (h : NamesAll os ns) (h' : NamesAll os' ms) :
    NamesAll (os ++ os') (ns ++ ms) := by
  obtain ⟨nss, hnss, rfl⟩ := h
  obtain ⟨mss, hmss, rfl⟩ := h'
  exact ⟨nss ++ mss, List.rel_append hnss hmss, by simp⟩

/-- Operands that are printed in any places of their own. -/
theorem namesAll_mapM {place : Operand → Result Code} {pieces : List Code}
    (hplace : ∀ o code, place o = .ok code → o.Names code.names)
    (hc : os.mapM place = .ok pieces) : NamesAll os (pieces.flatMap Code.names) := by
  have hall := (Result.forall₂_of_mapM_eq_ok hc).imp hplace
  exact ⟨pieces.map Code.names, List.forall₂_map_right_iff.mpr hall, List.flatMap_def⟩

theorem namesAll_atLeast {least : Priority} {pieces : List Code}
    (hc : os.mapM (atLeast least) = .ok pieces) : NamesAll os (pieces.flatMap Code.names) :=
  namesAll_mapM (fun _ _ => names_atLeast) hc

theorem namesAll_arguments (hc : arguments os = .ok code) : NamesAll os code.names := by
  obtain ⟨pieces, hpieces, hc⟩ := Result.bind_eq_ok.mp hc
  obtain rfl := Except.ok.inj hc
  simpa using namesAll_atLeast hpieces

theorem exists_names_infixed {op : BinaryOp} (hc : left.infixed op right = .ok code) :
    ∃ ns ms, left.Names ns ∧ right.Names ms ∧ code.names = ns ++ ms := by
  obtain ⟨first, hfirst, hc⟩ := Result.bind_eq_ok.mp hc
  obtain ⟨second, hsecond, hc⟩ := Result.bind_eq_ok.mp hc
  obtain rfl := Except.ok.inj hc
  exact ⟨_, _, names_atLeast hfirst, names_above hsecond, by simp⟩

theorem namesAll_infixed {op : BinaryOp} (hc : left.infixed op right = .ok code) :
    NamesAll [left, right] code.names := by
  obtain ⟨ns, ms, hns, hms, h⟩ := exists_names_infixed hc
  simpa [h] using hns.all.append hms.all

theorem namesAll_indexed (hc : left.indexed right = .ok code) :
    NamesAll [left, right] code.names := by
  obtain ⟨array, harray, hc⟩ := Result.bind_eq_ok.mp hc
  obtain ⟨position, hposition, hc⟩ := Result.bind_eq_ok.mp hc
  obtain rfl := Except.ok.inj hc
  simpa using (names_atLeast harray).all.append (names_code hposition).all

theorem namesAll_selected {cond : Operand} (hc : cond.selected left right = .ok code) :
    NamesAll [cond, left, right] code.names := by
  obtain ⟨first, hfirst, hc⟩ := Result.bind_eq_ok.mp hc
  obtain ⟨second, hsecond, hc⟩ := Result.bind_eq_ok.mp hc
  obtain ⟨third, hthird, hc⟩ := Result.bind_eq_ok.mp hc
  obtain rfl := Except.ok.inj hc
  simpa using NamesAll.cons (names_atLeast hfirst)
    ((names_atLeast hsecond).all.append (names_atLeast hthird).all)

theorem names_unary {op : UnaryOp} (hc : Context.unary op o = .ok code) : o.Names code.names := by
  unfold Context.unary at hc
  split_ifs at hc
  · obtain ⟨base, hbase, hc⟩ := Result.bind_eq_ok.mp hc
    obtain rfl := Except.ok.inj hc
    simpa using names_atLeast hbase
  · obtain ⟨inner, hinner, rfl⟩ := Operand.prefixed_eq_ok hc
    rw [Code.names_symbol]
    split_ifs at hinner
    · exact names_parenthesized hinner
    · exact names_atLeast hinner

/-- An operand has the same names wherever it is printed. -/
theorem Names.unique (h : o.Names ns) (h' : o.Names ms) : ns = ms := by
  obtain ⟨code, hc, rfl⟩ := h
  obtain ⟨code', hc', rfl⟩ := h'
  rw [Except.ok.inj (hc.symm.trans hc')]

end Operand

/-- Among the names that are kept account of, the code has those listed and those of the
operands. -/
def Context.Adds (cx : Context) (names : List PrintedName) (os : List Operand) (code : Code) :
    Prop :=
  ∃ ns, Operand.NamesAll os ns ∧ ∀ l, cx.target.counts l = true →
    (l ∈ code.names ↔ (∃ n ∈ names, n.lexeme cx.program = l) ∨ l ∈ ns)

theorem Context.Adds.of_names {cx : Context} {names : List PrintedName} {os : List Operand}
    {code : Code} {ns : List Lexeme} (h : Operand.NamesAll os ns)
    (hcode : ∀ l, cx.target.counts l = true →
      (l ∈ code.names ↔ (∃ n ∈ names, n.lexeme cx.program = l) ∨ l ∈ ns)) :
    cx.Adds names os code := ⟨ns, h, hcode⟩

/-- Code that has no names besides those of its operands. -/
theorem Context.Adds.of_operands {cx : Context} {os : List Operand} {code : Code}
    (h : Operand.NamesAll os code.names) : cx.Adds [] os code :=
  .of_names h (by simp)

attribute [simp] PrintedName.lexeme PrintedName.word PrintedName.header PrintedName.helper

theorem names_finiteFloat (x : Binary64) : (Context.finiteFloat x).names = [] := by
  unfold Context.finiteFloat
  split_ifs <;> rfl

namespace CFamily

variable {cx : Context} {d : Dialect} {obj left right : Operand} {args : List Operand} {code : Code}

theorem names_float (ht : cx.target = .cFamily d) {x : Binary64} (hc : cx.float x = .ok code) :
    code.names = [] := by
  simp only [Context.float, ht] at hc
  split_ifs at hc
  · obtain rfl := Except.ok.inj hc
    exact names_finiteFloat x
  · simp [Context.unsupported] at hc

theorem adds_literal (ht : cx.target = .cFamily d) {value : Literal} {ty : Ty}
    (hc : cx.literal value = .ok code) : cx.Adds (own cx d (.literal value ty)) [] code := by
  refine .of_names (Operand.namesAll_nil.mpr rfl) fun l _ => ?_
  cases value with
  | float x => simp [own, names_float ht hc]
  | int n | str s =>
      obtain rfl := Except.ok.inj hc
      simp [own]
  | bool b =>
      obtain rfl := Except.ok.inj hc
      simp [own, Context.truth, ht, eq_comm]
  | null =>
      obtain rfl := Except.ok.inj hc
      simp [own, Context.null, ht, eq_comm]

theorem names_enumValue (ht : cx.target = .cFamily d) {id : EnumId} {index : UInt64}
    (hc : cx.enumValue id index = .ok code) :
    code.names = (PrintedName.ifPresent cx.program (.enumerator id index)).map
      (PrintedName.lexeme cx.program) := by
  obtain ⟨e, he, hc⟩ := Result.bind_eq_ok.mp hc
  split at hc
  case h_1 => simp [Context.unsupported] at hc
  case h_2 value hvalue =>
    simp only [ht] at hc
    obtain rfl := Except.ok.inj hc
    simp [PrintedName.ifPresent, PrintedName.isPresent, enumeratorName, enumerator?,
      Context.enumOf_eq_ok he, hvalue]

theorem names_constant {owner : ClassId} {name : String} (hc : constant cx owner name = .ok code) :
    code.names = [PrintedName.lexeme cx.program (.constant owner name)] := by
  obtain ⟨c, hclass, hc⟩ := Result.bind_eq_ok.mp hc
  obtain rfl := Except.ok.inj hc
  have hclass : cx.program.classes[owner.index.toNat]? = some c := Context.classOf_eq_ok hclass
  simp [constantName, hclass]

theorem className_of_classOf {id : ClassId} {c : ClassDef} (hc : cx.classOf id = .ok c) :
    cx.program.className id = c.name := by
  have hclass : cx.program.classes[id.index.toNat]? = some c := Context.classOf_eq_ok hc
  simp [Program.className, hclass]

theorem adds_field {name : String} (hc : field cx obj name = .ok code) :
    cx.Adds [.coined (cx.target.localName name)] [obj] code := by
  obtain ⟨base, hbase, hc⟩ := Result.bind_eq_ok.mp hc
  obtain rfl := Except.ok.inj hc
  refine .of_names (Operand.names_atLeast hbase).all fun l _ => ?_
  simp [Context.localWord, or_comm, eq_comm]

theorem names_cast {type : Code} (hc : cast type obj = .ok code) :
    ∃ ns, obj.Names ns ∧ code.names = type.names ++ ns := by
  obtain ⟨inner, hinner, hc⟩ := Result.bind_eq_ok.mp hc
  obtain rfl := Except.ok.inj hc
  exact ⟨_, Operand.names_atLeast hinner, by simp⟩

@[simp] theorem names_intType (d : Dialect) (kind : IntKind) :
    Code.names [d.intType kind] = [d.intType kind] := by
  cases d <;> cases kind <;> rfl

theorem adds_property {accessor : BuiltinProperty} (hc : property d accessor obj = .ok code) :
    cx.Adds (propertyNames d accessor) [obj] code := by
  cases accessor with
  | signExtendByte | lowByte =>
      obtain ⟨ns, hns, hnames⟩ := names_cast hc
      refine .of_names hns.all fun l _ => ?_
      simp [hnames, propertyNames, eq_comm]
  | stringLength =>
      simp only [property, stringLength] at hc
      cases d with
      | standard =>
          obtain ⟨inner, hinner, hc⟩ := Result.bind_eq_ok.mp hc
          obtain rfl := Except.ok.inj hc
          refine .of_names (Operand.names_parenthesized hinner).all fun l _ => ?_
          simp [propertyNames, or_assoc, eq_comm]
      | openCL =>
          obtain ⟨inner, hinner, hc⟩ := Result.bind_eq_ok.mp hc
          obtain rfl := Except.ok.inj hc
          refine .of_names (Operand.names_parenthesized hinner).all fun l _ => ?_
          simp [propertyNames, eq_comm]

theorem adds_binary {op : BinaryOp} (hc : binary d op left right = .ok code) :
    cx.Adds (comparisonNames d op left.expr.ty right.expr.ty) [left, right] code := by
  unfold binary at hc
  unfold comparisonNames
  by_cases hstrings : (op = .eq ∨ op = .notEq) ∧ comparesStrings left.expr.ty right.expr.ty = true
  · rw [if_pos hstrings] at hc ⊢
    obtain ⟨first, hfirst, hc⟩ := Result.bind_eq_ok.mp hc
    obtain ⟨second, hsecond, hc⟩ := Result.bind_eq_ok.mp hc
    refine .of_names ((Operand.names_code hfirst).all.append (Operand.names_code hsecond).all)
      fun l _ => ?_
    cases d with
    | standard =>
        obtain rfl := Except.ok.inj hc
        simp [eq_comm]
    | openCL =>
        obtain rfl := Except.ok.inj hc
        cases op <;> simp [eq_comm]
  · rw [if_neg hstrings] at hc ⊢
    exact .of_operands (Operand.namesAll_infixed hc)

theorem names_elementSize (hc : elementSize obj = .ok code) :
    ∃ ns, obj.Names ns ∧ code.names = .word "sizeof" :: ns := by
  obtain ⟨inner, hinner, hc⟩ := Result.bind_eq_ok.mp hc
  obtain rfl := Except.ok.inj hc
  exact ⟨_, Operand.names_atLeast hinner, by simp⟩

/-- The array of a copy or of a clearing is printed more than once. -/
theorem adds_arrayMethod {m : BuiltinMethod} {es : List Expr}
    (hm : m = .arrayCopyTo ∨ m = .arrayClear)
    (hc : arrayMethod cx d obj m args = .ok code) :
    cx.Adds (methodNames d es m) (obj :: args) code := by
  unfold arrayMethod at hc
  split at hc
  case h_1 start target targetStart length =>
    obtain ⟨destination, hdestination, hc⟩ := Result.bind_eq_ok.mp hc
    obtain ⟨source, hsource, hc⟩ := Result.bind_eq_ok.mp hc
    obtain ⟨count, hcount, hc⟩ := Result.bind_eq_ok.mp hc
    obtain ⟨size, hsize, hc⟩ := Result.bind_eq_ok.mp hc
    obtain rfl := Except.ok.inj hc
    obtain ⟨ts, tps, hts, htps, hto⟩ := Operand.exists_names_infixed hdestination
    obtain ⟨as, ps, has, hps, hfrom⟩ := Operand.exists_names_infixed hsource
    obtain ⟨as', has', hfirst⟩ := names_elementSize hsize
    obtain rfl := has.unique has'
    have hall := ((has.all.append hps.all).append (hts.all.append htps.all)).append
      (Operand.names_atLeast hcount).all
    refine .of_names hall fun l _ => ?_
    simp [methodNames, hto, hfrom, hfirst]
    grind
  case h_2 =>
    split at hc
    case h_1 length _ =>
      obtain ⟨target, htarget, hc⟩ := Result.bind_eq_ok.mp hc
      obtain ⟨size, hsize, hc⟩ := Result.bind_eq_ok.mp hc
      obtain rfl := Except.ok.inj hc
      obtain ⟨as, has, hfirst⟩ := names_elementSize hsize
      obtain rfl := has.unique (Operand.names_code htarget)
      refine .of_names has.all fun l _ => ?_
      simp [methodNames, hfirst]
      grind
    case h_2 => simp [Context.unsupported] at hc
  case h_3 => simp [Context.unmappedMethod] at hc

/-- A built-in method that does not print. -/
theorem adds_builtinCall {receiver : Option Operand} {m : BuiltinMethod}
    (hc : builtinCall cx d receiver m args = .ok code) :
    cx.Adds (methodNames d (args.map Operand.expr) m) (receiver.toList ++ args) code := by
  unfold builtinCall at hc
  split at hc
  case h_1 obj factor divisor =>
    obtain ⟨product, hproduct, hc⟩ := Result.bind_eq_ok.mp hc
    obtain ⟨times, hfactor, hc⟩ := Result.bind_eq_ok.mp hc
    obtain ⟨divided, hdivisor, hc⟩ := Result.bind_eq_ok.mp hc
    obtain rfl := Except.ok.inj hc
    obtain ⟨ns, hns, hnames⟩ := names_cast hproduct
    refine .of_names (.cons hns ((Operand.names_atLeast hfactor).all.append
      (Operand.names_above hdivisor).all)) fun l _ => ?_
    simp [methodNames, hnames, or_assoc, eq_comm]
  case h_2 obj position => exact .of_operands (Operand.namesAll_indexed hc)
  case h_3 | h_4 => simp [Context.unmappedMethod] at hc
  case h_5 obj => exact adds_arrayMethod (.inl rfl) hc
  case h_6 obj => exact adds_arrayMethod (.inr rfl) hc
  case h_7 value =>
    obtain ⟨inner, hinner, hc⟩ := Result.bind_eq_ok.mp hc
    obtain rfl := Except.ok.inj hc
    refine .of_names (Operand.namesAll_arguments hinner) fun l _ => ?_
    cases hfloat : value.expr.ty.isFloating <;> simp [methodNames, hfloat, eq_comm]
  case h_8 value =>
    obtain ⟨inner, hinner, hc⟩ := Result.bind_eq_ok.mp hc
    obtain rfl := Except.ok.inj hc
    refine .of_names (Operand.namesAll_arguments hinner) fun l _ => ?_
    simp [methodNames, eq_comm]
  case h_9 => simp [Context.unsupported] at hc

/-- The words of the casts in front of printed values. -/
theorem namesAll_printedValues {values : List Operand} {pieces : List Code}
    (hc : values.mapM (printedValue d) = .ok pieces) : ∃ ns, Operand.NamesAll values ns ∧
      ∀ l, l ∈ pieces.flatMap Code.names ↔ (l = .word "long" ∧ d.longCast.isSome = true ∧
        .int .long ∈ values.map (·.expr.ty)) ∨ l ∈ ns := by
  induction values generalizing pieces with
  | nil =>
      obtain rfl := Except.ok.inj hc
      exact ⟨[], Operand.namesAll_nil.mpr rfl, by simp⟩
  | cons value rest ih =>
      rw [List.mapM_cons] at hc
      obtain ⟨first, hfirst, hc⟩ := Result.bind_eq_ok.mp hc
      obtain ⟨others, hothers, hc⟩ := Result.bind_eq_ok.mp hc
      obtain rfl := Except.ok.inj hc
      obtain ⟨ms, hms, hrest⟩ := ih hothers
      obtain ⟨ns, hns, hvalue⟩ : ∃ ns, value.Names ns ∧ ∀ l, l ∈ first.names ↔
          (l = .word "long" ∧ d.longCast.isSome = true ∧ value.expr.ty = .int .long) ∨ l ∈ ns := by
        unfold printedValue at hfirst
        cases d with
        | standard =>
            simp only [Dialect.longCast] at hfirst
            split_ifs at hfirst with hlong
            · obtain ⟨inner, hinner, hfirst⟩ := Result.bind_eq_ok.mp hfirst
              obtain rfl := Except.ok.inj hfirst
              exact ⟨_, Operand.names_atLeast hinner, by simp [hlong, Dialect.longCast]⟩
            · exact ⟨_, Operand.names_atLeast hfirst, by simp [hlong]⟩
        | openCL => exact ⟨_, Operand.names_atLeast hfirst, by simp [Dialect.longCast]⟩
      refine ⟨ns ++ ms, .cons hns hms, fun l => ?_⟩
      have hrest := hrest l
      have hvalue := hvalue l
      simp only [List.flatMap_cons, List.mem_append, List.map_cons, List.mem_cons, hvalue, hrest]
      grind

theorem adds_printfCall {format : String} {values : List Operand} {names : List PrintedName}
    (hnames : names = .header "printf" .stdio ::
      if d.longCast.isSome ∧ .int .long ∈ values.map (·.expr.ty) then [.word "long"] else [])
    (hc : printfCall d format values = .ok code) : cx.Adds names values code := by
  obtain ⟨rest, hrest, hc⟩ := Result.bind_eq_ok.mp hc
  obtain rfl := Except.ok.inj hc
  obtain ⟨ns, hns, hvalues⟩ := namesAll_printedValues hrest
  refine .of_names hns fun l _ => ?_
  have hvalues := hvalues l
  rw [hnames]
  split_ifs with hlong <;> simp [-List.mem_flatMap, hvalues, hlong] <;> grind

/-- What is printed for a single argument: a text with values, a text, or a value. -/
theorem shown_cases (cx : Context) (e : Expr) :
    (∃ parts suffix ty, e = .interpolated parts suffix ty) ∨
      (∃ text ty, e = .literal (.str text) ty) ∨
      ((∀ text ty, e ≠ .literal (.str text) ty) ∧ cx.shown [e] = [.value (cx.operand e)] ∧
        printedTypes [e] = [e.ty] ∧ Context.spread [e] = [e]) := by
  cases e with
  | interpolated parts suffix ty => exact .inl ⟨parts, suffix, ty, rfl⟩
  | literal value ty =>
      cases value with
      | str text => exact .inr (.inl ⟨text, ty, rfl⟩)
      | _ => exact .inr (.inr ⟨by simp, rfl, rfl, rfl⟩)
  | _ => exact .inr (.inr ⟨by simp, rfl, rfl, rfl⟩)

theorem adds_print {es : List Expr} {lineEnd : String}
    (hc : print cx d lineEnd (cx.shown es) = .ok code) :
    cx.Adds (methodNames d es .consoleWrite) ((Context.spread es).map cx.operand) code := by
  rcases es with _ | ⟨e, _ | ⟨second, rest⟩⟩
  · exact adds_printfCall (by simp [methodNames, printedTypes, Context.spread]) hc
  · rcases shown_cases cx e with ⟨parts, suffix, ty, rfl⟩ | ⟨text, ty, rfl⟩ |
      ⟨htext, hshown, htypes, hspread⟩
    · obtain ⟨formats, -, hc⟩ := Result.bind_eq_ok.mp hc
      have hvalues : (cx.holes parts).map Prod.snd = (parts.map Part.arg).map cx.operand := by
        simp [Context.holes_eq, Function.comp_def]
      rw [hvalues] at hc
      exact adds_printfCall
        (by simp [methodNames, printedTypes, Context.spread, Context.operand]) hc
    · obtain ⟨ns, hns, hnames⟩ := @adds_printfCall cx _ _ _ []
        (methodNames d [.literal (.str text) ty] .consoleWrite)
        (by simp [methodNames, printedTypes]) hc
      obtain rfl := Operand.namesAll_nil.mp hns
      have htext : (cx.operand (.literal (.str text) ty)).Names [] := ⟨_, rfl, rfl⟩
      exact .of_names htext.all hnames
    · rw [hshown] at hc
      simp only [print] at hc
      split at hc
      case h_1 text ty hliteral => exact absurd hliteral (htext text ty)
      case h_2 =>
        obtain ⟨format, -, hc⟩ := Result.bind_eq_ok.mp hc
        rw [hspread]
        exact adds_printfCall (by simp [methodNames, htypes, Context.operand]) hc
  · simp [print_many, Context.unsupported] at hc

theorem adds_printCall {receiver : Option Operand} {m : BuiltinMethod} {lineEnd : String}
    {es : List Expr} (hm : m = .consoleWrite ∨ m = .consoleWriteLine)
    (hc : printCall cx d receiver m lineEnd (cx.shown es) = .ok code) :
    cx.Adds (methodNames d es m) (receiver.toList ++ (Context.spread es).map cx.operand) code := by
  have hnames : methodNames d es m = methodNames d es .consoleWrite := by
    rcases hm with rfl | rfl <;> rfl
  rw [hnames]
  cases receiver with
  | none => exact adds_print hc
  | some obj => simp [printCall, Context.unsupported] at hc

theorem names_instanceArgument {receiver : Option Operand}
    (hc : instanceArgument receiver = .ok code) :
    match receiver with
    | none => code.names = [.word "self"]
    | some obj => obj.Names code.names := by
  cases receiver with
  | none =>
      obtain rfl := Except.ok.inj hc
      rfl
  | some obj =>
      simp only [instanceArgument] at hc
      split at hc
      · obtain ⟨inner, hinner, hc⟩ := Result.bind_eq_ok.mp hc
        obtain rfl := Except.ok.inj hc
        simpa using Operand.names_atLeast hinner
      · exact Operand.names_code hc

theorem adds_userCall {receiver : Option Operand} {owner : ClassId} {name : String}
    {isStatic : Bool}
    (hc : userCall cx receiver owner name isStatic args = .ok code) :
    cx.Adds (.function owner name :: if !isStatic && receiver.isNone then [.word "self"] else [])
      ((if isStatic then [] else receiver.toList) ++ args) code := by
  obtain ⟨c, self, rest, hclass, hself, hrest, rfl⟩ := userCall_eq_ok hc
  have hname := className_of_classOf hclass
  have hargs := Operand.namesAll_atLeast hrest
  cases isStatic with
  | true =>
      obtain rfl := hself
      refine .of_names hargs fun l _ => ?_
      simp [hname, eq_comm]
  | false =>
      obtain ⟨first, hfirst, rfl⟩ := hself
      have hfirst := names_instanceArgument hfirst
      cases receiver with
      | none =>
          refine .of_names hargs fun l _ => ?_
          simp [show first.names = _ from hfirst, hname, or_assoc, eq_comm]
      | some obj =>
          refine .of_names (Operand.NamesAll.cons hfirst hargs) fun l _ => ?_
          simp [hname, eq_comm]

theorem names_resource {name : String} (hc : resource cx name = .ok code) :
    code.names = (PrintedName.ifPresent cx.program (.resource name)).map
      (PrintedName.lexeme cx.program) := by
  unfold resource at hc
  split_ifs at hc with hfound
  · obtain rfl := Except.ok.inj hc
    simp [PrintedName.ifPresent, PrintedName.isPresent, hfound]
  · simp [Context.unsupported] at hc

end CFamily

/-! In ActionScript only the functions of the helper class are kept account of, so most code adds
nothing but what its operands add. -/

namespace ActionScript

variable {cx : Context} {obj left right : Operand} {args : List Operand} {code : Code}

/-- The code calls nothing of the helper class. -/
def Plain (code : Code) : Prop := ∀ name supplier, .supplied name supplier ∉ code.names

/-- In ActionScript it is enough to follow the supplied names. -/
theorem adds_of_supplied (ht : cx.target = .actionScript) {names : List PrintedName}
    {os : List Operand} {ns : List Lexeme} (h : Operand.NamesAll os ns)
    (hcode : ∀ name supplier, .supplied name supplier ∈ code.names ↔
      (∃ n ∈ names, n.lexeme cx.program = .supplied name supplier) ∨ .supplied name supplier ∈ ns) :
    cx.Adds names os code := by
  refine .of_names h fun l hl => ?_
  rw [ht] at hl
  cases l with
  | supplied name supplier => exact hcode name supplier
  | _ => simp [Target.counts, Lexeme.supplier?] at hl

theorem adds_of_plain (ht : cx.target = .actionScript) (h : Plain code) : cx.Adds [] [] code :=
  adds_of_supplied ht (Operand.namesAll_nil.mpr rfl) (by simpa [Plain] using h)

theorem plain_float (ht : cx.target = .actionScript) {x : Binary64} (hc : cx.float x = .ok code) :
    Plain code := by
  simp only [Context.float, ht] at hc
  split_ifs at hc <;> obtain rfl := Except.ok.inj hc <;> simp [Plain, names_finiteFloat]

theorem plain_truth (ht : cx.target = .actionScript) (b : Bool) : Plain (cx.truth b) := by
  simp [Plain, Context.truth, ht]

theorem plain_literal (ht : cx.target = .actionScript) {value : Literal}
    (hc : cx.literal value = .ok code) : Plain code := by
  cases value with
  | float x => exact plain_float ht hc
  | bool b =>
      obtain rfl := Except.ok.inj hc
      exact plain_truth ht b
  | _ =>
      obtain rfl := Except.ok.inj hc
      simp [Plain, Context.null, ht]

theorem plain_enumValue (ht : cx.target = .actionScript) {id : EnumId} {index : UInt64}
    (hc : cx.enumValue id index = .ok code) : Plain code := by
  obtain ⟨e, -, hc⟩ := Result.bind_eq_ok.mp hc
  split at hc
  · simp [Context.unsupported] at hc
  · simp only [ht] at hc
    obtain rfl := Except.ok.inj hc
    simp [Plain]

mutual

theorem plain_constValue (ht : cx.target = .actionScript) : ∀ (value : ConstValue) {code : Code},
    cx.constValue value = .ok code → Plain code
  | .int n, code, hc => by
      obtain rfl := Except.ok.inj hc
      simp [Plain]
  | .float x, code, hc => plain_float ht hc
  | .bool b, code, hc => by
      obtain rfl := Except.ok.inj hc
      exact plain_truth ht b
  | .str s, code, hc => by
      obtain rfl := Except.ok.inj hc
      simp [Plain]
  | .enumValue id index, code, hc => plain_enumValue ht hc
  | .array items, code, hc => by
      obtain ⟨pieces, hpieces, hc⟩ := Result.bind_eq_ok.mp hc
      obtain rfl := Except.ok.inj hc
      have hitems := plain_constItems ht items hpieces
      intro name supplier
      simp only [Context.table, ht, Code.names_append, Code.names_commaSeparated, List.mem_append,
        List.mem_flatMap]
      rintro ((h | ⟨piece, hpiece, h⟩) | h)
      · simp at h
      · exact hitems piece hpiece name supplier h
      · simp at h

theorem plain_constItems (ht : cx.target = .actionScript) :
    ∀ (items : List ConstValue) {pieces : List Code}, cx.constItems items = .ok pieces →
      ∀ piece ∈ pieces, Plain piece
  | [], pieces, hc => by
      obtain rfl := Except.ok.inj hc
      simp
  | item :: rest, pieces, hc => by
      obtain ⟨first, hfirst, hc⟩ := Result.bind_eq_ok.mp hc
      obtain ⟨others, hothers, hc⟩ := Result.bind_eq_ok.mp hc
      obtain rfl := Except.ok.inj hc
      exact List.forall_mem_cons.mpr
        ⟨plain_constValue ht item hfirst, plain_constItems ht rest hothers⟩

end

theorem plain_classPrefix {id : ClassId} (hc : classPrefix cx id = .ok code) : Plain code := by
  unfold classPrefix at hc
  split_ifs at hc
  · obtain rfl := Except.ok.inj hc
    simp [Plain]
  · obtain ⟨c, -, hc⟩ := Result.bind_eq_ok.mp hc
    obtain rfl := Except.ok.inj hc
    simp [Plain]

theorem plain_constant (ht : cx.target = .actionScript) {owner : ClassId} {name : String}
    (hc : constant cx owner name = .ok code) : Plain code := by
  obtain ⟨c, -, hc⟩ := Result.bind_eq_ok.mp hc
  split at hc
  · obtain ⟨value, hvalue, hc⟩ := Result.bind_eq_ok.mp hc
    obtain rfl := Except.ok.inj hc
    have hplain := plain_constValue ht _ hvalue
    split_ifs
    · simpa [Plain] using hplain
    · exact hplain
  · obtain ⟨qualifier, hqualifier, hc⟩ := Result.bind_eq_ok.mp hc
    obtain rfl := Except.ok.inj hc
    simpa [Plain] using plain_classPrefix hqualifier

theorem adds_field (ht : cx.target = .actionScript) {name : String}
    (hc : field cx obj name = .ok code) : cx.Adds [] [obj] code := by
  obtain ⟨base, hbase, hc⟩ := Result.bind_eq_ok.mp hc
  obtain rfl := Except.ok.inj hc
  exact adds_of_supplied ht (Operand.names_atLeast hbase).all (by simp [Context.localWord])

theorem exists_names_quotient (hc : quotient left right = .ok code) :
    ∃ ns, Operand.NamesAll [left, right] ns ∧ code.names = .word "int" :: ns := by
  obtain ⟨inner, hinner, hc⟩ := Result.bind_eq_ok.mp hc
  obtain rfl := Except.ok.inj hc
  exact ⟨_, Operand.namesAll_infixed hinner, by simp⟩

theorem adds_binary (ht : cx.target = .actionScript) {op : BinaryOp} {ty : Ty}
    (hc : binary op ty left right = .ok code) : cx.Adds [] [left, right] code := by
  unfold binary at hc
  split_ifs at hc
  · obtain ⟨ns, hns, h⟩ := exists_names_quotient hc
    exact adds_of_supplied ht hns (by simp [h])
  · exact .of_operands (Operand.namesAll_infixed hc)

theorem adds_property (ht : cx.target = .actionScript) {accessor : BuiltinProperty}
    (hc : property accessor obj = .ok code) : cx.Adds [] [obj] code := by
  cases accessor <;>
    obtain ⟨base, hbase, hc⟩ := Result.bind_eq_ok.mp hc <;>
    obtain rfl := Except.ok.inj hc <;>
    exact adds_of_supplied ht (Operand.names_atLeast hbase).all (by simp)

theorem adds_helperCall (ht : cx.target = .actionScript) {helper : Helper} {name : String}
    (hc : helperCall helper name args = .ok code) : cx.Adds [.helper name helper] args code := by
  obtain ⟨inner, hinner, hc⟩ := Result.bind_eq_ok.mp hc
  obtain rfl := Except.ok.inj hc
  exact adds_of_supplied ht (Operand.namesAll_arguments hinner) (by simp [eq_comm])

theorem adds_mathCall (ht : cx.target = .actionScript) {name : String}
    (hc : mathCall name args = .ok code) : cx.Adds [] args code := by
  obtain ⟨inner, hinner, hc⟩ := Result.bind_eq_ok.mp hc
  obtain rfl := Except.ok.inj hc
  exact adds_of_supplied ht (Operand.namesAll_arguments hinner) (by simp)

/-- The functions of the helper class that a built-in method is printed as. -/
theorem adds_method (ht : cx.target = .actionScript) {m : BuiltinMethod}
    (hc : method cx obj m args = .ok code) :
    cx.Adds (helperNames (args.map Operand.expr) m) (obj :: args) code := by
  unfold method at hc
  split at hc
  case h_1 factor divisor =>
    obtain ⟨product, hproduct, hc⟩ := Result.bind_eq_ok.mp hc
    obtain ⟨times, hfactor, hc⟩ := Result.bind_eq_ok.mp hc
    obtain ⟨divided, hdivisor, hc⟩ := Result.bind_eq_ok.mp hc
    obtain rfl := Except.ok.inj hc
    exact adds_of_supplied ht (.cons (Operand.names_atLeast hproduct)
      ((Operand.names_atLeast hfactor).all.append (Operand.names_above hdivisor).all))
      (by simp [helperNames])
  case h_2 position =>
    obtain ⟨base, hbase, hc⟩ := Result.bind_eq_ok.mp hc
    obtain ⟨inner, hinner, hc⟩ := Result.bind_eq_ok.mp hc
    obtain rfl := Except.ok.inj hc
    exact adds_of_supplied ht
      ((Operand.names_atLeast hbase).all.append (Operand.names_code hinner).all)
      (by simp [helperNames])
  case h_3 start length =>
    unfold substring at hc
    cases heffect : start.expr.hasSideEffect with
    | true =>
        simp only [heffect, if_true] at hc
        simpa [helperNames, heffect] using adds_helperCall ht hc
    | false =>
        simp only [heffect, Bool.false_eq_true, if_false] at hc
        obtain ⟨receiver, hreceiver, hc⟩ := Result.bind_eq_ok.mp hc
        obtain ⟨first, hfirst, hc⟩ := Result.bind_eq_ok.mp hc
        obtain ⟨last, hlast, hc⟩ := Result.bind_eq_ok.mp hc
        obtain rfl := Except.ok.inj hc
        obtain ⟨ns, ms, hns, hms, h⟩ := Operand.exists_names_infixed hlast
        obtain rfl := hns.unique (Operand.names_atLeast hfirst)
        refine adds_of_supplied ht
          (.cons (Operand.names_atLeast hreceiver) (hns.all.append hms.all))
          fun name supplier => ?_
        simp [helperNames, heffect, h]
  case h_4 | h_5 => exact adds_helperCall ht hc
  case h_6 =>
    obtain ⟨inner, hinner, hc⟩ := Result.bind_eq_ok.mp hc
    obtain rfl := Except.ok.inj hc
    exact adds_of_supplied ht (Operand.names_parenthesized hinner).all
      (by simp [helperNames, eq_comm])
  case h_7 => simp [Context.unsupported] at hc

theorem adds_builtinCall (ht : cx.target = .actionScript) {receiver : Option Expr}
    {m : BuiltinMethod} {es : List Expr}
    (hc : builtinCall cx (receiver.map cx.operand) m (es.map cx.operand) = .ok code) :
    cx.Adds (helperNames es m)
      ((receiver.toList ++ cx.printedArgs m es).map cx.operand) code := by
  have hargs : (es.map cx.operand).map Operand.expr = es := by
    simp [Context.operand, Function.comp_def]
  cases receiver with
  | some obj =>
      have hm : m ≠ .consoleWrite ∧ m ≠ .consoleWriteLine := by
        constructor <;> rintro rfl <;>
          simp [builtinCall, method, Context.unmappedMethod, Context.unsupported] at hc
      have hprinted : cx.printedArgs m es = es := by
        simp [Context.printedArgs, Context.takesFirst, hm]
      have hc : method cx (cx.operand obj) m (es.map cx.operand) = .ok code := by
        cases m <;> first | exact hc | exact absurd rfl hm.1
      rw [hprinted]
      simpa [hargs] using adds_method ht hc
  | none =>
      cases m with
      | consoleWriteLine =>
          have hprinted : cx.printedArgs .consoleWriteLine es = es.take 1 := by
            simp [Context.printedArgs, Context.takesFirst, ht]
          rw [hprinted]
          cases es with
          | nil =>
              obtain rfl := Except.ok.inj hc
              exact adds_of_supplied ht (Operand.namesAll_nil.mpr rfl) (by simp [helperNames])
          | cons e rest =>
              obtain ⟨shown, hshown, hc⟩ := Result.bind_eq_ok.mp hc
              obtain rfl := Except.ok.inj hc
              exact adds_of_supplied ht (Operand.names_code hshown).all (by simp [helperNames])
      | mathAbs | mathSqrt => exact adds_mathCall ht hc
      | _ => simp [builtinCall, Context.unmappedMethod, Context.unsupported] at hc

theorem adds_userCall (ht : cx.target = .actionScript) {receiver : Option Operand}
    {owner : ClassId} {name : String} {isStatic : Bool}
    (hc : userCall cx receiver owner name isStatic args = .ok code) :
    cx.Adds [] (receiver.toList ++ args) code := by
  obtain ⟨qualifier, inner, hinner, rfl, hqualifier⟩ := userCall_eq_ok hc
  have hargs := Operand.namesAll_arguments hinner
  cases receiver with
  | some obj =>
      obtain ⟨base, hbase, rfl⟩ := hqualifier
      exact adds_of_supplied ht (.cons (Operand.names_atLeast hbase) hargs)
        (by simp [Context.localWord])
  | none =>
      have hplain : Plain qualifier := by
        dsimp only at hqualifier
        split_ifs at hqualifier
        · exact plain_classPrefix hqualifier
        · simp [hqualifier, Plain]
      exact adds_of_supplied ht hargs fun name supplier => by
        simp [Context.localWord, hplain name supplier]

theorem namesAll_interpolatedTail {first : Bool} {holes : List (Hole × Operand)}
    (hc : interpolatedTail cx first holes = .ok code) :
    Operand.NamesAll (holes.map Prod.snd) code.names := by
  induction holes generalizing first code with
  | nil =>
      obtain rfl := Except.ok.inj hc
      exact Operand.namesAll_nil.mpr rfl
  | cons hole rest ih =>
      obtain ⟨shown, others, hshown, hothers, rfl⟩ := interpolatedTail_cons_eq_ok hc
      have hall := Operand.NamesAll.cons (Operand.names_above hshown) (ih hothers)
      split_ifs <;> simpa using hall

theorem namesAll_interpolated {holes : List (Hole × Operand)} {suffix : String}
    (hc : interpolated cx holes suffix = .ok code) :
    Operand.NamesAll (holes.map Prod.snd) code.names := by
  obtain ⟨chain, hchain, hc⟩ := Result.bind_eq_ok.mp hc
  have hall := namesAll_interpolatedTail hchain
  split_ifs at hc with hempty hsuffix
  · obtain rfl := Except.ok.inj hc
    obtain rfl := List.isEmpty_iff.mp hempty
    exact Operand.namesAll_nil.mpr rfl
  · obtain rfl := Except.ok.inj hc
    simpa using hall
  · obtain rfl := Except.ok.inj hc
    exact hall

end ActionScript

namespace Context

variable {cx : Context} {code : Code}

/-- Among the names that are kept account of, the code has exactly those listed. -/
def Lists (cx : Context) (names : List PrintedName) (ns : List Lexeme) : Prop :=
  ∀ l, cx.target.counts l = true → (l ∈ ns ↔ ∃ n ∈ names, n.lexeme cx.program = l)

theorem own_of_actionScript (ht : cx.target = .actionScript) (e : Expr) :
    cx.own e = ActionScript.own e := by
  simp [own, ht]

theorem own_of_cFamily {d : Dialect} (ht : cx.target = .cFamily d) (e : Expr) :
    cx.own e = CFamily.own cx d e := by
  simp [own, ht]

/-- Names that are printed by themselves. -/
theorem adds_of_names {names : List PrintedName}
    (h : code.names = names.map (PrintedName.lexeme cx.program)) : cx.Adds names [] code :=
  .of_names (Operand.namesAll_nil.mpr rfl) (by simp [h])

theorem adds_code_of_actionScript (ht : cx.target = .actionScript) {e : Expr}
    (hc : cx.code e = .ok code) :
    cx.Adds (ActionScript.own e) ((cx.printedChildren e).map cx.operand) code := by
  cases e with
  | literal value ty => exact ActionScript.adds_of_plain ht (ActionScript.plain_literal ht hc)
  | var name ty =>
      obtain rfl := Except.ok.inj hc
      exact ActionScript.adds_of_plain ht (by simp [ActionScript.Plain, localWord])
  | this ty =>
      obtain rfl := Except.ok.inj hc
      exact ActionScript.adds_of_plain ht (by simp [ActionScript.Plain, this, ht])
  | const owner name ty =>
      change cx.constant owner name = _ at hc
      simp only [constant, ht] at hc
      exact ActionScript.adds_of_plain ht (ActionScript.plain_constant ht hc)
  | enumValue id index ty =>
      exact ActionScript.adds_of_plain ht (ActionScript.plain_enumValue ht hc)
  | field obj name ty =>
      change cx.field (cx.operand obj) name = _ at hc
      simp only [field, ht] at hc
      exact ActionScript.adds_field ht hc
  | property obj accessor ty =>
      change cx.property accessor (cx.operand obj) = _ at hc
      simp only [property, ht] at hc
      exact ActionScript.adds_property ht hc
  | call receiver callee args ty =>
      cases callee with
      | user owner name isStatic =>
          simp only [Context.code, userCall, ht, receiverOperand_eq, operands_eq] at hc
          have hadds := ActionScript.adds_userCall ht hc
          cases receiver <;>
            simpa [printedChildren, dropsReceiver, ht, ActionScript.own] using hadds
      | builtin m =>
          simp only [code_builtinCall, ht] at hc
          exact ActionScript.adds_builtinCall ht hc
  | index array position ty => exact .of_operands (Operand.namesAll_indexed hc)
  | unary op operand ty => exact .of_operands (Operand.names_unary hc).all
  | binary left op right ty =>
      change cx.binary op ty (cx.operand left) (cx.operand right) = _ at hc
      simp only [binary, ht] at hc
      exact ActionScript.adds_binary ht hc
  | select cond onTrue onFalse ty => exact .of_operands (Operand.namesAll_selected hc)
  | interpolated parts suffix ty =>
      simp only [Context.code, ht, holes_eq] at hc
      have hall := ActionScript.namesAll_interpolated hc
      exact .of_operands (by simpa [printedChildren, Expr.children, Function.comp_def] using hall)
  | resource name ty =>
      change cx.resource name = _ at hc
      simp [resource, ht, unsupported] at hc

theorem adds_code_of_cFamily {d : Dialect} (ht : cx.target = .cFamily d) {e : Expr}
    (hc : cx.code e = .ok code) :
    cx.Adds (CFamily.own cx d e) ((cx.printedChildren e).map cx.operand) code := by
  cases e with
  | literal value ty => exact CFamily.adds_literal ht hc
  | var name ty =>
      obtain rfl := Except.ok.inj hc
      exact adds_of_names rfl
  | this ty =>
      obtain rfl := Except.ok.inj hc
      exact adds_of_names (by simp [this, ht, CFamily.own])
  | const owner name ty =>
      change cx.constant owner name = _ at hc
      simp only [constant, ht] at hc
      exact adds_of_names (CFamily.names_constant hc)
  | enumValue id index ty => exact adds_of_names (CFamily.names_enumValue ht hc)
  | field obj name ty =>
      change cx.field (cx.operand obj) name = _ at hc
      simp only [field, ht] at hc
      exact CFamily.adds_field hc
  | property obj accessor ty =>
      change cx.property accessor (cx.operand obj) = _ at hc
      simp only [property, ht] at hc
      exact CFamily.adds_property hc
  | call receiver callee args ty =>
      cases callee with
      | user owner name isStatic =>
          simp only [Context.code, userCall, ht, receiverOperand_eq, operands_eq] at hc
          have hadds := CFamily.adds_userCall hc
          cases receiver <;> cases isStatic <;>
            simpa [printedChildren, dropsReceiver, ht, CFamily.own] using hadds
      | builtin m =>
          simp only [code_builtinCall, ht] at hc
          simp only [printedChildren, List.map_append]
          have hargs : (args.map cx.operand).map Operand.expr = args := by
            simp [operand, Function.comp_def]
          split_ifs at hc with hwrite hline
          · have hadds := CFamily.adds_printCall (.inl rfl) hc
            cases receiver <;> simpa [printedArgs, takesFirst, hwrite, CFamily.own] using hadds
          · have hadds := CFamily.adds_printCall (.inr rfl) hc
            cases receiver <;> simpa [printedArgs, takesFirst, ht, hline, CFamily.own] using hadds
          · have hadds := CFamily.adds_builtinCall hc
            cases receiver <;>
              simpa [printedArgs, takesFirst, hwrite, hline, hargs, CFamily.own] using hadds
  | index array position ty => exact .of_operands (Operand.namesAll_indexed hc)
  | unary op operand ty => exact .of_operands (Operand.names_unary hc).all
  | binary left op right ty =>
      change cx.binary op ty (cx.operand left) (cx.operand right) = _ at hc
      simp only [binary, ht] at hc
      exact CFamily.adds_binary hc
  | select cond onTrue onFalse ty => exact .of_operands (Operand.namesAll_selected hc)
  | interpolated parts suffix ty => simp [Context.code, ht, unsupported] at hc
  | resource name ty =>
      change cx.resource name = _ at hc
      simp only [resource, ht] at hc
      exact adds_of_names (CFamily.names_resource hc)

/-- Every expression is printed with its own names and those of its printed operands. -/
theorem adds_code {e : Expr} (hc : cx.code e = .ok code) :
    cx.Adds (cx.own e) ((cx.printedChildren e).map cx.operand) code := by
  unfold own
  split
  case h_1 ht => exact adds_code_of_actionScript ht hc
  case h_2 d ht => exact adds_code_of_cFamily ht hc

theorem mem_of_namesAll {es : List Expr} {ns : List Lexeme} {l : Lexeme}
    (hns : Operand.NamesAll (es.map cx.operand) ns)
    (h : ∀ e ∈ es, ∀ code, cx.code e = .ok code →
      (l ∈ code.names ↔ ∃ n ∈ cx.names e, n.lexeme cx.program = l)) :
    l ∈ ns ↔ ∃ e ∈ es, ∃ n ∈ cx.names e, n.lexeme cx.program = l := by
  obtain ⟨nss, hnss, rfl⟩ := hns
  induction es generalizing nss with
  | nil =>
      cases hnss
      simp
  | cons e rest ih =>
      rcases hnss with _ | ⟨⟨code, hc, rfl⟩, hrest⟩
      obtain ⟨hfirst, hothers⟩ := List.forall_mem_cons.mp h
      simp [hfirst code hc, ih hothers _ hrest]

/-- The names in a printed expression are those that are listed for it. -/
theorem lists_code (e : Expr) {code : Code} (hc : cx.code e = .ok code) :
    cx.Lists (cx.names e) code.names := by
  intro l hl
  obtain ⟨ns, hns, hcode⟩ := adds_code hc
  have hchildren := mem_of_namesAll (l := l) hns fun child hchild _ hcode =>
    have := sizeOf_lt_of_mem_printedChildren hchild
    lists_code child hcode l hl
  rw [hcode l hl, hchildren]
  constructor
  · rintro (⟨n, hn, rfl⟩ | ⟨child, hchild, n, hn, rfl⟩)
    · exact ⟨n, mem_names.mpr (.inl hn), rfl⟩
    · exact ⟨n, mem_names.mpr (.inr ⟨child, hchild, hn⟩), rfl⟩
  · rintro ⟨n, hn, rfl⟩
    rcases mem_names.mp hn with hn | ⟨child, hchild, hn⟩
    · exact .inl ⟨n, hn, rfl⟩
    · exact .inr ⟨child, hchild, n, hn, rfl⟩
termination_by e

end Context

end Emitter
