import Emitter.Proofs.Aggregates.Reader
import Emitter.Proofs.Brackets.Expression

/-!
# Expressions hold no aggregates

The printed form of an expression has no braces, and its brackets index what is no declared name. A
reader passes over it to a place where an operator, a comma or the end of a statement may follow.
-/

namespace Emitter.Aggregates

open CFamily Layout Number Program

/-- Where an expression may start. -/
def calm : List Place := [.plain, .list]

/-- Where an expression may end. -/
def done : List Place := [.plain, .list, .word]

/-- An expression may be printed by the code. -/
def Quiet (code : Code) : Prop := Crosses calm done false code

instance (code : Code) : Decidable (Quiet code) := inferInstanceAs (Decidable (Crosses ..))

theorem subset_calm : [Place.plain] ⊆ calm := by simp [calm]

theorem crosses_word (l : Lexeme) {w : String} (hl : l = .word w ∨ ∃ s, l = .supplied w s) :
    Crosses calm done false [l] := by
  intro p hp
  have hnone : p ∉ [Place.word, .star, .name] := by
    revert p
    decide
  have hread : p.read [l] = some (if w ∈ leadingWords then .plain else .word) := by
    rcases hl with rfl | ⟨s, rfl⟩ <;> simp [Place.next, hnone]
  refine ⟨_, ?_, hread⟩
  split_ifs <;> decide

theorem quiet_word (w : String) : Quiet [.word w] := crosses_word _ (.inl rfl)

theorem quiet_supplied (w : String) (s : Supplier) : Quiet [.supplied w s] :=
  crosses_word _ (.inr ⟨s, rfl⟩)

theorem crosses_number (s : String) {before : List Place} (h : .length ∉ before) :
    Crosses before [.plain] false [.number s] := fun p hp => by
  have hp : p ≠ .length := fun heq => h (heq ▸ hp)
  exact ⟨.plain, by simp, by simp [Place.next, hp]⟩

theorem crosses_quoted (s : String) (before : List Place) :
    Crosses before [.plain] false [.quoted s] := fun _ _ => ⟨.plain, by simp, rfl⟩

theorem quiet_number (s : String) : Quiet [.number s] :=
  (crosses_number s (by decide)).mono (List.Subset.refl _) (by decide)

theorem quiet_quoted (s : String) : Quiet [.quoted s] :=
  (crosses_quoted s _).mono (List.Subset.refl _) (by decide)

namespace Quiet

variable {code rest : Code}

/-- Behind the code there is more that goes with it. -/
theorem continued (h : Quiet code) (hrest : Crosses done done false rest) : Quiet (code ++ rest) :=
  Crosses.behind h hrest

/-- In front of the code there is something that a reader passes. -/
theorem after {front : Code} {before : List Place} (h : Quiet code)
    (hfront : Crosses before calm false front) : Crosses before done false (front ++ code) :=
  hfront.behind h

theorem infixed (h : Quiet code) (hrest : Quiet rest) {op : String}
    (hop : Crosses done calm false (Code.operator op)) : Quiet (code ++ Code.operator op ++ rest) :=
  Crosses.behind (h.behind hop) hrest

theorem parenthesized (h : Quiet code) {before : List Place}
    (hbefore : Crosses before calm false [.symbol "("]) :
    Crosses before done false code.parenthesized :=
  hbefore.behind (h.continued (by decide))

theorem commaSeparated {pieces : List Code} (h : ∀ piece ∈ pieces, Quiet piece) :
    Quiet (Code.commaSeparated pieces) := by
  have hcomma : Crosses done calm false Code.comma := by decide
  have hany : ((pieces.map fun _ => false).any id) = false := by simp
  have hcrosses := Crosses.commaSeparated hcomma (Crosses.forall₂_of_forall h)
  rw [hany] at hcrosses
  exact hcrosses.mono (List.Subset.refl _) (by decide)

end Quiet

/-- The printed form of the operand, if it has one, is quiet. -/
def IsQuiet (o : Operand) : Prop := Yields o.code Quiet

namespace IsQuiet

variable {o left right : Operand}

theorem parenthesized (h : IsQuiet o) : Yields o.parenthesized Quiet := by
  intro code hc
  obtain ⟨inner, hinner, rfl⟩ := Result.map_eq_ok.mp hc
  exact (h inner hinner).parenthesized (by decide)

theorem atLeast (h : IsQuiet o) (least : Priority) : Yields (o.atLeast least) Quiet := by
  unfold Operand.atLeast
  split_ifs
  · exact h.parenthesized
  · exact h

theorem above (h : IsQuiet o) (bound : Priority) : Yields (o.above bound) Quiet := by
  unfold Operand.above
  split_ifs
  · exact h.parenthesized
  · exact h

theorem crosses_binaryOp (op : BinaryOp) : Crosses done calm false (Code.operator op.text) := by
  cases op <;> decide

theorem infixed (op : BinaryOp) (hl : IsQuiet left) (hr : IsQuiet right) :
    Yields (left.infixed op right) Quiet :=
  (hl.atLeast _).bind fun _ hfirst => (hr.above _).bind fun _ hsecond =>
    yields_pure (hfirst.infixed hsecond (crosses_binaryOp op))

theorem indexed (hl : IsQuiet left) (hr : IsQuiet right) : Yields (left.indexed right) Quiet :=
  (hl.atLeast _).bind fun _ hfirst => Yields.bind hr fun _ hsecond => by
    have hopen : Crosses done calm false [.symbol "["] := by decide
    exact yields_pure (Quiet.continued (hfirst.continued (hsecond.after hopen)) (by decide))

theorem arguments {args : List Operand} (h : ∀ o ∈ args, IsQuiet o) {before : List Place}
    (hbefore : Crosses before calm false [.symbol "("]) :
    Yields (Operand.arguments args) (Crosses before done false) :=
  (yields_mapM fun o ho => (h o ho).atLeast .argument).bind fun _ hpieces =>
    yields_pure ((Quiet.commaSeparated hpieces).parenthesized hbefore)

theorem unary (op : UnaryOp) (h : IsQuiet o) : Yields (Context.unary op o) Quiet := by
  have hfront : Crosses calm calm false [.symbol op.text] := by cases op <;> decide
  have hback : Crosses done done false [.symbol op.text] := by cases op <;> decide
  unfold Context.unary
  split_ifs
  · exact (h.atLeast _).bind fun _ hbase => yields_pure (hbase.continued hback)
  · unfold Operand.prefixed
    split_ifs
    · exact h.parenthesized.bind fun _ hbase => yields_pure (hbase.after hfront)
    · exact (h.atLeast _).bind fun _ hbase => yields_pure (hbase.after hfront)

end IsQuiet

/-- The code of a constant that is no list. -/
inductive IsScalar : Code → Prop
  | word (w : String) : IsScalar [.word w]
  | supplied (w : String) (s : Supplier) : IsScalar [.supplied w s]
  | number (text : String) : IsScalar [.number text]
  | negative (text : String) : IsScalar [.symbol "-", .number text]
  | quoted (text : String) : IsScalar [.quoted text]

theorem IsScalar.quiet {code : Code} (h : IsScalar code) : Quiet code := by
  cases h with
  | word w => exact quiet_word w
  | supplied w s => exact quiet_supplied w s
  | number text => exact quiet_number text
  | negative text =>
      exact (quiet_number text).after (by decide : Crosses calm calm false [.symbol "-"])
  | quoted text => exact quiet_quoted text

section Constants

variable {cx : Context} {d : Dialect}

theorem isScalar_integer (n : Int) : IsScalar (Code.integer n) := by
  unfold Code.integer
  split_ifs
  · exact .negative _
  · exact .number _

theorem isScalar_float (ht : cx.target = .cFamily d) (x : Binary64) :
    Yields (cx.float x) IsScalar := by
  unfold Context.float
  rw [ht]
  dsimp only
  split_ifs
  · refine yields_pure ?_
    unfold Context.finiteFloat
    split_ifs
    · exact .negative _
    · exact .number _
  · exact yields_error _

theorem isScalar_truth (ht : cx.target = .cFamily d) (b : Bool) : IsScalar (cx.truth b) := by
  unfold Context.truth
  rw [ht]
  exact .supplied _ _

theorem isScalar_enumValue (ht : cx.target = .cFamily d) (id : EnumId) (index : UInt64) :
    Yields (cx.enumValue id index) IsScalar := by
  refine yields_bind fun e _ => ?_
  split
  · exact yields_error _
  · rw [ht]
    exact yields_pure (.word _)

theorem isScalar_literal (ht : cx.target = .cFamily d) (value : Literal) :
    Yields (cx.literal value) IsScalar := by
  cases value with
  | int n => exact yields_pure (isScalar_integer _)
  | float x => exact isScalar_float ht x
  | bool b => exact yields_pure (isScalar_truth ht b)
  | str s => exact yields_pure (.quoted s)
  | null =>
      refine yields_pure ?_
      unfold Context.null
      rw [ht]
      exact .supplied _ _

theorem quiet_constant (ht : cx.target = .cFamily d) (owner : ClassId) (name : String) :
    Yields (cx.constant owner name) Quiet := by
  unfold Context.constant
  rw [ht]
  exact yields_bind fun c _ => yields_pure (quiet_word _)

end Constants

section Operations

variable {cx : Context} {d : Dialect} {obj left right : Operand}

theorem quiet_field (ht : cx.target = .cFamily d) (name : String) (h : IsQuiet obj) :
    Yields (cx.field obj name) Quiet := by
  have hselector : ∀ arrow ∈ ["->", "."], Crosses done calm false [.symbol arrow] := by decide
  unfold Context.field
  rw [ht]
  refine (h.atLeast _).bind fun base hbase => yields_pure ?_
  refine hbase.continued (Quiet.after (quiet_word _) (hselector _ ?_))
  split <;> decide

/-- A type between parentheses. -/
theorem quiet_cast {type : Code} (htype : Crosses calm [.word, .name] false type)
    (h : IsQuiet obj) : Yields (cast type obj) Quiet := by
  have hopen : Crosses calm calm false [.symbol "("] := by decide
  have hclose : Crosses [.word, .name] calm false [.symbol ")"] := by decide
  have hgap : Crosses calm calm false [.gap] := by decide
  exact (h.atLeast _).bind fun _ hbase => yields_pure
    (((hopen.behind htype).behind hclose).behind (hgap.behind hbase))

theorem crosses_intType (d : Dialect) (kind : IntKind) :
    Crosses calm [.word, .name] false [d.intType kind] := by
  cases d <;> cases kind <;> decide

/-- A function of the library and its arguments. -/
theorem quiet_call {l : Lexeme} {args : Code} (hl : Quiet [l])
    (hargs : Crosses done done false args) : Quiet (l :: args) :=
  hl.continued hargs

theorem quiet_stringLength (d : Dialect) (h : IsQuiet obj) :
    Yields (stringLength d obj) Quiet := by
  have hargs : Yields obj.parenthesized (Crosses done done false) := by
    intro code hc
    obtain ⟨inner, hinner, rfl⟩ := Result.map_eq_ok.mp hc
    exact (h inner hinner).parenthesized (by decide)
  unfold stringLength
  cases d with
  | standard =>
      have hcast : Crosses calm calm false (Code.parenthesized [.word "int"] ++ [Lexeme.gap]) := by
        decide
      exact hargs.bind fun _ hargs =>
        yields_pure ((quiet_call (quiet_supplied _ _) hargs).after hcast)
  | openCL =>
      exact hargs.bind fun _ hargs => yields_pure (quiet_call (quiet_supplied _ _) hargs)

theorem quiet_property (ht : cx.target = .cFamily d) (accessor : BuiltinProperty)
    (h : IsQuiet obj) : Yields (cx.property accessor obj) Quiet := by
  unfold Context.property
  rw [ht]
  cases accessor with
  | signExtendByte => exact quiet_cast (crosses_intType d .sbyte) h
  | lowByte => exact quiet_cast (crosses_intType d .byte) h
  | stringLength => exact quiet_stringLength d h

theorem quiet_stringEquality (d : Dialect) (negated : Bool) (hl : IsQuiet left)
    (hr : IsQuiet right) : Yields (stringEquality d negated left right) Quiet := by
  refine Yields.bind hl fun first hfirst => Yields.bind hr fun second hsecond => ?_
  have hargs : Crosses done done false
      (Code.parenthesized (Code.commaSeparated [first, second])) :=
    (Quiet.commaSeparated (by simp [hfirst, hsecond])).parenthesized (by decide)
  cases d with
  | standard =>
      have hzero : Crosses done done false
          (Code.operator (if negated then "!=" else "==") ++ [Lexeme.number "0"]) := by
        cases negated <;> decide
      have hcall := (quiet_call (quiet_supplied "strcmp" (.header .string)) hargs).continued hzero
      exact yields_pure (by simpa using hcall)
  | openCL =>
      have hfront : Crosses calm calm false (if negated then [Lexeme.symbol "!"] else []) := by
        cases negated <;> decide
      exact yields_pure ((quiet_call (quiet_supplied _ _) hargs).after hfront)

theorem quiet_binary (ht : cx.target = .cFamily d) (op : BinaryOp) (ty : Ty) (hl : IsQuiet left)
    (hr : IsQuiet right) : Yields (cx.binary op ty left right) Quiet := by
  unfold Context.binary
  rw [ht]
  dsimp only [CFamily.binary]
  split_ifs
  · exact quiet_stringEquality d _ hl hr
  · exact hl.infixed op hr

end Operations

section Calls

variable {cx : Context} {d : Dialect} {obj : Operand} {receiver : Option Operand}
  {args : List Operand}

theorem quiet_instanceArgument (hr : ∀ o ∈ receiver, IsQuiet o) :
    Yields (instanceArgument receiver) Quiet := by
  have haddress : Crosses calm calm false [.symbol "&"] := by decide
  cases receiver with
  | none => exact yields_pure (quiet_word "self")
  | some obj =>
      have hobj := hr obj rfl
      unfold instanceArgument
      simp only
      split
      · exact (hobj.atLeast _).bind fun _ hbase => yields_pure (hbase.after haddress)
      · exact hobj

theorem quiet_userCall (ht : cx.target = .cFamily d) (owner : ClassId) (name : String)
    (isStatic : Bool) (hr : ∀ o ∈ receiver, IsQuiet o) (ha : ∀ o ∈ args, IsQuiet o) :
    Yields (cx.userCall receiver owner name isStatic args) Quiet := by
  unfold Context.userCall
  rw [ht]
  refine yields_bind fun c _ => ?_
  have hcall (self : List Code) (hself : ∀ code ∈ self, Quiet code) : Yields (do
      let rest ← args.mapM (Operand.atLeast .argument)
      return .word (functionName c.name name) ::
        Code.parenthesized (Code.commaSeparated (self ++ rest))) Quiet :=
    (yields_mapM fun o ho => (ha o ho).atLeast .argument).bind fun rest hrest =>
      have hall := Quiet.commaSeparated (List.forall_mem_append.mpr ⟨hself, hrest⟩)
      yields_pure (quiet_call (quiet_word _) (hall.parenthesized (by decide)))
  cases isStatic with
  | true => exact hcall [] (by simp)
  | false =>
      exact (quiet_instanceArgument hr).bind fun self hself => hcall [self] (by simpa using hself)

theorem quiet_elementSize (h : IsQuiet obj) : Yields (elementSize obj) Quiet := by
  have hopen : Crosses calm calm false [.word "sizeof", .symbol "("] := by decide
  have hclose : Crosses done done false
      [.symbol "[", .number "0", .symbol "]", .symbol ")"] := by decide
  refine (h.atLeast _).bind fun base hbase => yields_pure ?_
  have hsize := hopen.behind (hbase.continued hclose)
  rwa [show [Lexeme.word "sizeof", .symbol "("] ++ (base ++ _) =
    .word "sizeof" :: Code.parenthesized (base ++ [.symbol "[", .number "0", .symbol "]"]) by
      simp [Code.parenthesized]] at hsize

theorem crosses_times : Crosses done calm false (Code.operator "*") := by decide

theorem quiet_libraryCall {name : String} {supplier : Supplier} {pieces : List Code}
    (h : ∀ piece ∈ pieces, Quiet piece) :
    Quiet (.supplied name supplier :: Code.parenthesized (Code.commaSeparated pieces)) :=
  quiet_call (quiet_supplied _ _) ((Quiet.commaSeparated h).parenthesized (by decide))

theorem quiet_arrayMethod (d : Dialect) (m : BuiltinMethod) (h : IsQuiet obj)
    (ha : ∀ o ∈ args, IsQuiet o) : Yields (arrayMethod cx d obj m args) Quiet := by
  unfold arrayMethod
  split
  case h_1 start target targetStart length =>
    refine ((ha target (by simp)).infixed .add (ha targetStart (by simp))).bind
      fun destination hdestination => (h.infixed .add (ha start (by simp))).bind
        fun source hsource => ((ha length (by simp)).atLeast _).bind fun count hcount =>
          (quiet_elementSize h).bind fun size hsize => yields_pure (quiet_libraryCall ?_)
    have hbytes := hcount.infixed hsize crosses_times
    simp only [List.forall_mem_cons]
    exact ⟨hdestination, hsource, hbytes, by simp⟩
  case h_2 =>
    split
    · rename_i length _
      refine Yields.bind h fun target htarget => (quiet_elementSize h).bind fun size hsize =>
        yields_pure (quiet_libraryCall ?_)
      have hbytes := (quiet_number (toString length.toNat)).infixed hsize crosses_times
      simp only [List.forall_mem_cons]
      exact ⟨htarget, quiet_number "0", hbytes, by simp⟩
    · exact yields_error _
  case h_3 => exact yields_error _

theorem quiet_builtinCall (d : Dialect) (m : BuiltinMethod) (hr : ∀ o ∈ receiver, IsQuiet o)
    (ha : ∀ o ∈ args, IsQuiet o) : Yields (builtinCall cx d receiver m args) Quiet := by
  unfold builtinCall
  split
  case h_1 obj factor divisor =>
    refine (quiet_cast (crosses_intType d .long) (hr obj rfl)).bind fun product hproduct =>
      ((ha factor (by simp)).atLeast _).bind fun factored hfactor =>
        ((ha divisor (by simp)).above _).bind fun divided hdivisor => yields_pure ?_
    have hcast : Crosses calm calm false (Code.parenthesized [.word "int"] ++ [Lexeme.gap]) := by
      decide
    have hdivide : Crosses done calm false (Code.operator "/") := by decide
    have hquotient := (hproduct.infixed hfactor crosses_times).infixed hdivisor hdivide
    exact hcast.behind (hquotient.parenthesized (by decide))
  case h_2 obj position => exact (hr obj rfl).indexed (ha position (by simp))
  case h_5 obj => exact quiet_arrayMethod d _ (hr obj rfl) ha
  case h_6 obj => exact quiet_arrayMethod d _ (hr obj rfl) ha
  case h_7 value =>
    refine (IsQuiet.arguments ha (by decide)).bind fun _ hargs => yields_pure (quiet_call ?_ hargs)
    split_ifs <;> exact quiet_supplied _ _
  case h_8 value =>
    exact (IsQuiet.arguments ha (by decide)).bind fun _ hargs =>
      yields_pure (quiet_call (quiet_supplied _ _) hargs)
  all_goals exact yields_error _

theorem quiet_printedValue (d : Dialect) (h : IsQuiet obj) :
    Yields (printedValue d obj) Quiet := by
  have hcast : Crosses calm calm false
      (Code.parenthesized [.word "long", .gap, .word "long"] ++ [Lexeme.gap]) := by decide
  cases d with
  | standard =>
      simp only [printedValue, Dialect.longCast]
      split_ifs
      · exact (h.atLeast _).bind fun value hvalue => yields_pure (hvalue.after hcast)
      · exact h.atLeast _
  | openCL => exact h.atLeast _

theorem quiet_printfCall (d : Dialect) (format : String) (h : ∀ o ∈ args, IsQuiet o) :
    Yields (printfCall d format args) Quiet :=
  (yields_mapM fun o ho => quiet_printedValue d (h o ho)).bind fun _ hrest =>
    yields_pure (quiet_libraryCall (List.forall_mem_cons.mpr ⟨quiet_quoted format, hrest⟩))

/-- The operands of what is printed are quiet. -/
def IsQuietShown : Shown → Prop
  | .interpolated holes _ => ∀ part ∈ holes, IsQuiet part.2
  | .value o => IsQuiet o

theorem quiet_printCall (d : Dialect) (receiver : Option Operand) (m : BuiltinMethod)
    (lineEnd : String) {args : List Shown} (h : ∀ shown ∈ args, IsQuietShown shown) :
    Yields (printCall cx d receiver m lineEnd args) Quiet := by
  unfold printCall
  split
  · unfold print
    split
    · exact quiet_printfCall d _ (by simp)
    · rename_i holes suffix
      have hholes : ∀ part ∈ holes, IsQuiet part.2 := h (.interpolated holes suffix) (by simp)
      refine yields_bind fun _ _ => quiet_printfCall d _ ?_
      simpa using fun o hole ho => hholes (hole, o) ho
    · rename_i o
      have ho : IsQuiet o := h (.value o) (by simp)
      split
      · exact quiet_printfCall d _ (by simp)
      · exact yields_bind fun _ _ => quiet_printfCall d _ (by simpa using ho)
    · exact yields_error _
  · exact yields_error _

theorem isQuiet_shown {args : List Expr} (h : ∀ e ∈ args, IsQuiet (cx.operand e))
    (hparts : ∀ parts suffix ty, .interpolated parts suffix ty ∈ args →
      ∀ part ∈ parts, IsQuiet (cx.operand part.arg)) :
    ∀ shown ∈ cx.shown args, IsQuietShown shown := by
  induction args with
  | nil => simp [Context.shown]
  | cons e rest ih =>
      obtain ⟨he, hrest⟩ := List.forall_mem_cons.mp h
      have ih := ih hrest fun parts suffix ty hmem =>
        hparts parts suffix ty (List.mem_cons_of_mem e hmem)
      cases e with
      | interpolated parts suffix ty =>
          refine List.forall_mem_cons.mpr ⟨?_, ih⟩
          have hhole := hparts parts suffix ty (by simp)
          simpa [IsQuietShown, Context.holes_eq] using hhole
      | _ => exact List.forall_mem_cons.mpr ⟨he, ih⟩

end Calls

section Expressions

variable {cx : Context} {d : Dialect}

/-- The printed form of every expression is quiet, and so is that of the values in it where it is a
text with values: these are printed as arguments of their own. -/
theorem quiet_code_and_parts (ht : cx.target = .cFamily d) (e : Expr) :
    IsQuiet (cx.operand e) ∧ ∀ parts suffix ty, e = .interpolated parts suffix ty →
      ∀ part ∈ parts, IsQuiet (cx.operand part.arg) := by
  induction e using Expr.inductOn with
  | h e ih =>
      refine ⟨?_, ?_⟩
      swap
      · rintro parts suffix ty rfl part hpart
        exact (ih part.arg (List.mem_map_of_mem hpart)).1
      change Yields (cx.code e) Quiet
      cases e with
      | literal value ty => exact fun code hcode => (isScalar_literal ht value code hcode).quiet
      | var name ty => exact yields_pure (quiet_word _)
      | this ty =>
          refine yields_pure ?_
          unfold Context.this
          rw [ht]
          exact quiet_word _
      | const owner name ty => exact quiet_constant ht owner name
      | enumValue id i ty => exact fun code hcode => (isScalar_enumValue ht id i code hcode).quiet
      | field obj name ty => exact quiet_field ht name (ih obj (by simp [Expr.children])).1
      | property obj accessor ty =>
          exact quiet_property ht accessor (ih obj (by simp [Expr.children])).1
      | call receiver callee args ty =>
          have hr : ∀ o ∈ receiver.map cx.operand, IsQuiet o := by
            intro o ho
            obtain ⟨obj, rfl, rfl⟩ := Option.map_eq_some_iff.mp ho
            exact (ih obj (by simp [Expr.children])).1
          have ha : ∀ o ∈ args.map cx.operand, IsQuiet o := by
            intro o ho
            obtain ⟨arg, harg, rfl⟩ := List.mem_map.mp ho
            exact (ih arg (by simp [Expr.children, harg])).1
          cases callee with
          | user owner name isStatic =>
              rw [Context.code, Context.receiverOperand_eq, Context.operands_eq]
              exact quiet_userCall ht owner name isStatic hr ha
          | builtin m =>
              have hshown : ∀ shown ∈ cx.shown args, IsQuietShown shown :=
                isQuiet_shown (fun arg harg => (ih arg (by simp [Expr.children, harg])).1)
                  fun parts suffix ty hmem =>
                    (ih _ (by simp [Expr.children, hmem])).2 parts suffix ty rfl
              rw [code_builtinCall, ht]
              dsimp only
              split_ifs
              · exact quiet_printCall d _ _ _ hshown
              · exact quiet_printCall d _ _ _ hshown
              · exact quiet_builtinCall d m hr ha
      | index array position ty =>
          exact (ih array (by simp [Expr.children])).1.indexed
            (ih position (by simp [Expr.children])).1
      | unary op operand ty => exact (ih operand (by simp [Expr.children])).1.unary op
      | binary left op right ty =>
          exact quiet_binary ht op ty (ih left (by simp [Expr.children])).1
            (ih right (by simp [Expr.children])).1
      | select cond onTrue onFalse ty =>
          have hquestion : Crosses done calm false (Code.operator "?") := by decide
          have hcolon : Crosses done calm false (Code.operator ":") := by decide
          rw [Context.code_select]
          exact ((ih cond (by simp [Expr.children])).1.atLeast _).bind fun first hfirst =>
            ((ih onTrue (by simp [Expr.children])).1.atLeast _).bind fun second hsecond =>
              ((ih onFalse (by simp [Expr.children])).1.atLeast _).bind fun third hthird =>
                yields_pure ((hfirst.infixed hsecond hquestion).infixed hthird hcolon)
      | interpolated parts suffix ty =>
          rw [Context.code, ht]
          exact yields_error _
      | resource name ty =>
          change Yields (cx.resource name) Quiet
          unfold Context.resource
          rw [ht]
          dsimp only [CFamily.resource]
          split_ifs
          · exact yields_pure (quiet_word _)
          · exact yields_error _

theorem quiet_code (ht : cx.target = .cFamily d) (e : Expr) : Yields (cx.code e) Quiet :=
  (quiet_code_and_parts ht e).1

end Expressions

end Emitter.Aggregates
