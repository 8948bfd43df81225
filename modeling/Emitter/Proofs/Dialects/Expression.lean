import Emitter.Proofs.Expression.Shown
import Emitter.Proofs.Statement.Everywhere

/-!
# Expressions in the two dialects of C

An expression that OpenCL C has a form for has one in standard C, and both dialects refuse the same
expressions for the same reasons, apart from those in which an array is copied or cleared: standard
C does this by functions of its library, and OpenCL C has none.
-/

namespace Emitter

open Layout Program

def Target.inStandardC : Target → Target
  | .cFamily .openCL => .cFamily .standard
  | t => t

/-- Only the wording for an interpolated string that is not printed depends on the dialect. -/
def Feature.inStandardC : Feature → Feature
  | .interpolation .openCL => .interpolation .standard
  | feature => feature

def Refusal.inStandardC : Refusal → Refusal
  | .unmappedType t type => .unmappedType t.inStandardC type
  | .unmappedBuiltin t m => .unmappedBuiltin t.inStandardC m
  | .unsupported t feature => .unsupported t.inStandardC feature.inStandardC
  | .unknownTarget name => .unknownTarget name

/-- The fault that standard C reports where OpenCL C reports the given one. -/
def Fault.inStandardC : Fault → Fault
  | .refused refusal => .refused refusal.inStandardC
  | fault => fault

/-! The two dialects are run side by side. A fault of the one is a fault of the other in its own
words, and only where arrays are copied may OpenCL C stop alone. -/

/-- What standard C and OpenCL C come to. Either both have values that are related, or both stop at
the same fault. Where arrays are copied, OpenCL C may also stop by itself. -/
inductive Parallel {α β : Type} (copies : Prop) (R : α → β → Prop) : Result α → Result β → Prop
  | values {a : α} {b : β} (h : R a b) : Parallel copies R (.ok a) (.ok b)
  | faults (fault : Fault) : Parallel copies R (.error fault.inStandardC) (.error fault)
  | copied (h : copies) (r : Result α) (fault : Fault) : Parallel copies R r (.error fault)

/-- The results are parallel, whatever the values are. -/
abbrev Alike {α β : Type} (copies : Prop) : Result α → Result β → Prop :=
  Parallel copies fun _ _ => True

section Results

variable {α β γ δ : Type} {copies : Prop} {R : α → β → Prop} {S : γ → δ → Prop}
  {r : Result α} {r' : Result β}

theorem alike_pure (a : α) (b : β) : Alike copies (pure a) (pure b) := .values trivial

theorem Parallel.bind {f : α → Result γ} {g : β → Result δ} (h : Parallel copies R r r')
    (hnext : ∀ a b, R a b → Parallel copies S (f a) (g b)) :
    Parallel copies S (r >>= f) (r' >>= g) := by
  cases h with
  | values h => exact hnext _ _ h
  | faults fault => exact .faults fault
  | copied h r fault => exact .copied h _ fault

/-- What comes after a result does not look at its value. -/
theorem Parallel.seq {f : α → Result γ} {g : β → Result δ} (h : Parallel copies R r r')
    (hnext : ∀ a b, Parallel copies S (f a) (g b)) : Parallel copies S (r >>= f) (r' >>= g) :=
  h.bind fun a b _ => hnext a b

/-- A value that is built of the value of a result. -/
theorem Parallel.andThen {f : α → γ} {g : β → δ} (h : Parallel copies R r r') :
    Alike copies (r >>= fun a => pure (f a)) (r' >>= fun b => pure (g b)) :=
  h.seq fun _ _ => alike_pure _ _

theorem Parallel.mapLeft (h : Parallel copies R r r') (f : α → γ) : Alike copies (r.map f) r' := by
  cases h with
  | values => exact .values trivial
  | faults fault => exact .faults fault
  | copied h r fault => exact .copied h _ fault

theorem Parallel.mapRight (h : Parallel copies R r r') (g : β → δ) : Alike copies r (r'.map g) := by
  cases h with
  | values => exact .values trivial
  | faults fault => exact .faults fault
  | copied h r fault => exact .copied h _ fault

theorem Parallel.of_map {f : α → γ} {g : β → δ} (h : Parallel copies S (r.map f) (r'.map g)) :
    Alike copies r r' := by
  cases r with
  | error fault =>
      cases r' with
      | error fault' =>
          cases h with
          | faults => exact .faults fault'
          | copied hcopies => exact .copied hcopies _ _
      | ok b => cases h
  | ok a =>
      cases r' with
      | error fault' =>
          cases h with
          | copied hcopies => exact .copied hcopies _ _
      | ok b => exact .values trivial

theorem parallel_lookedUp (found : Except SymbolId α) :
    Parallel copies Eq (lookedUp found) (lookedUp found) := by
  cases found with
  | ok a => exact .values rfl
  | error id => exact .faults (.dangling id)

theorem alike_mapM {P : α → β → Prop} {f : α → Result γ} {g : β → Result δ} {xs : List α}
    {ys : List β} (h : List.Forall₂ P xs ys) (hstep : ∀ x y, P x y → Alike copies (f x) (g y)) :
    Alike copies (xs.mapM f) (ys.mapM g) := by
  induction h with
  | nil => exact alike_pure _ _
  | cons hxy _ ih =>
      rw [List.mapM_cons, List.mapM_cons]
      exact (hstep _ _ hxy).seq fun _ _ => ih.andThen

theorem Parallel.ite {c : Prop} [Decidable c] {s : Result α} {s' : Result β}
    (h : Parallel copies R r r') (h' : Parallel copies R s s') :
    Parallel copies R (if c then r else s) (if c then r' else s') := by
  split_ifs
  · exact h
  · exact h'

end Results

namespace Program

/-- The program as it is printed in a dialect. -/
abbrev inC (p : Program) (d : Dialect) : Context := ⟨p, .cFamily d, none⟩

/-- The expression is a call that copies or clears an array. -/
def Expr.copiesArray : Expr → Bool
  | .call _ (.builtin .arrayCopyTo) _ _ | .call _ (.builtin .arrayClear) _ _ => true
  | _ => false

end Program

namespace Operand

/-- An expression as an operand of the two dialects. -/
structure Alike (copies : Prop) (o o' : Operand) : Prop where
  expr : o'.expr = o.expr
  code : Emitter.Alike copies o.code o'.code

variable {copies : Prop} {o o' left left' right right' : Operand}

/-- Parentheses make no difference to whether an operand is printed. -/
theorem Alike.enclosed (h : o.Alike copies o') {r r' : Result Code}
    (hr : r = o.code ∨ r = o.parenthesized) (hr' : r' = o'.code ∨ r' = o'.parenthesized) :
    Emitter.Alike copies r r' := by
  have hcode : Emitter.Alike copies r o'.code := by
    rcases hr with rfl | rfl
    · exact h.code
    · exact h.code.mapLeft _
  rcases hr' with rfl | rfl
  · exact hcode
  · exact hcode.mapRight _

theorem atLeast_eq (least : Priority) (o : Operand) :
    o.atLeast least = o.code ∨ o.atLeast least = o.parenthesized := by
  unfold atLeast
  split_ifs
  · exact .inr rfl
  · exact .inl rfl

theorem above_eq (bound : Priority) (o : Operand) :
    o.above bound = o.code ∨ o.above bound = o.parenthesized := by
  unfold above
  split_ifs
  · exact .inr rfl
  · exact .inl rfl

theorem Alike.parenthesized (h : o.Alike copies o') :
    Emitter.Alike copies o.parenthesized o'.parenthesized := h.enclosed (.inr rfl) (.inr rfl)

theorem Alike.atLeast (h : o.Alike copies o') (least least' : Priority) :
    Emitter.Alike copies (o.atLeast least) (o'.atLeast least') :=
  h.enclosed (atLeast_eq _ _) (atLeast_eq _ _)

theorem Alike.above (h : o.Alike copies o') (bound : Priority) :
    Emitter.Alike copies (o.above bound) (o'.above bound) :=
  h.enclosed (above_eq _ _) (above_eq _ _)

theorem alike_arguments {args args' : List Operand} (h : List.Forall₂ (Alike copies) args args') :
    Emitter.Alike copies (arguments args) (arguments args') :=
  (alike_mapM h fun _ _ h => h.atLeast _ _).andThen

theorem Alike.prefixed (h : o.Alike copies o') (op : UnaryOp) :
    Emitter.Alike copies (o.prefixed op) (o'.prefixed op) := by
  have hsign : o'.startsWithSign = o.startsWithSign := by simp only [startsWithSign, h.expr]
  unfold Operand.prefixed
  rw [hsign]
  cases o.startsWithSign with
  | true => exact h.parenthesized.andThen
  | false => exact (h.atLeast _ _).andThen

theorem Alike.postfixed (h : o.Alike copies o') (op : UnaryOp) :
    Emitter.Alike copies (o.postfixed op) (o'.postfixed op) := (h.atLeast _ _).andThen

theorem Alike.infixed (hleft : left.Alike copies left') (op : BinaryOp)
    (hright : right.Alike copies right') :
    Emitter.Alike copies (infixed op left right) (infixed op left' right') :=
  (hleft.atLeast _ _).seq fun _ _ => (hright.above _).andThen

theorem Alike.selected (h : o.Alike copies o') (hleft : left.Alike copies left')
    (hright : right.Alike copies right') :
    Emitter.Alike copies (o.selected left right) (o'.selected left' right') :=
  (h.atLeast _ _).seq fun _ _ => (hleft.atLeast _ _).seq fun _ _ => (hright.atLeast _ _).andThen

theorem Alike.indexed (h : o.Alike copies o') (hposition : left.Alike copies left') :
    Emitter.Alike copies (o.indexed left) (o'.indexed left') :=
  (h.atLeast _ _).seq fun _ _ => hposition.code.andThen

end Operand

variable {copies : Prop} {p : Program}

namespace Context

/-- A refusal for a reason that both dialects word alike. -/
theorem alike_unsupported {α β : Type} (feature : Feature) (h : feature.inStandardC = feature) :
    Alike copies ((p.inC .standard).unsupported feature : Result α)
      ((p.inC .openCL).unsupported feature : Result β) := by
  have hfault : (Fault.refused (.unsupported (.cFamily .standard) feature)) =
      (Fault.refused (.unsupported (.cFamily .openCL) feature)).inStandardC := by
    simp [Fault.inStandardC, Refusal.inStandardC, Target.inStandardC, h]
  unfold unsupported
  rw [hfault]
  exact .faults _

theorem alike_unmappedType {α β : Type} (ty : Ty) :
    Alike copies ((p.inC .standard).unmappedType ty : Result α)
      ((p.inC .openCL).unmappedType ty : Result β) :=
  .faults (.refused (.unmappedType (.cFamily .openCL) (p.describe ty)))

theorem alike_unmappedMethod {α β : Type} (m : BuiltinMethod) :
    Alike copies ((p.inC .standard).unmappedMethod m : Result α)
      ((p.inC .openCL).unmappedMethod m : Result β) :=
  .faults (.refused (.unmappedBuiltin (.cFamily .openCL) m))

theorem parallel_classOf (id : ClassId) :
    Parallel copies Eq ((p.inC .standard).classOf id) ((p.inC .openCL).classOf id) :=
  parallel_lookedUp _

theorem alike_float (x : Number.Binary64) :
    Alike copies ((p.inC .standard).float x) ((p.inC .openCL).float x) :=
  Parallel.ite (alike_pure _ _) (alike_unsupported (.floatLiteral x) rfl)

theorem alike_literal (value : Literal) :
    Alike copies ((p.inC .standard).literal value) ((p.inC .openCL).literal value) := by
  cases value with
  | float x => exact alike_float x
  | _ => exact alike_pure _ _

theorem alike_enumValue (id : EnumId) (index : UInt64) :
    Alike copies ((p.inC .standard).enumValue id index) ((p.inC .openCL).enumValue id index) := by
  refine (parallel_lookedUp _).bind fun e e' he => ?_
  subst he
  dsimp only
  split
  · exact alike_unsupported _ rfl
  · exact alike_pure _ _

mutual

theorem alike_constValue : ∀ value : ConstValue,
    Alike copies ((p.inC .standard).constValue value) ((p.inC .openCL).constValue value)
  | .int _ | .bool _ | .str _ => alike_pure _ _
  | .float x => alike_float x
  | .enumValue id index => alike_enumValue id index
  | .array items => (alike_constItems items).andThen

theorem alike_constItems : ∀ items : List ConstValue,
    Alike copies ((p.inC .standard).constItems items) ((p.inC .openCL).constItems items)
  | [] => alike_pure _ _
  | item :: rest => (alike_constValue item).seq fun _ _ => (alike_constItems rest).andThen

end

end Context

namespace CFamily

variable {o o' left left' right right' : Operand} {args args' : List Operand}
  {receiver receiver' : Option Operand}

theorem alike_constant (owner : ClassId) (name : String) :
    Alike copies (constant (p.inC .standard) owner name) (constant (p.inC .openCL) owner name) :=
  (Context.parallel_classOf owner).andThen

theorem alike_field (h : o.Alike copies o') (name : String) :
    Alike copies (field (p.inC .standard) o name) (field (p.inC .openCL) o' name) :=
  (h.atLeast _ _).andThen

theorem alike_cast (type type' : Code) (h : o.Alike copies o') :
    Alike copies (cast type o) (cast type' o') := (h.atLeast _ _).andThen

theorem alike_property (accessor : BuiltinProperty) (h : o.Alike copies o') :
    Alike copies (property .standard accessor o) (property .openCL accessor o') := by
  cases accessor with
  | signExtendByte | lowByte => exact alike_cast _ _ h
  | stringLength => exact h.parenthesized.andThen

theorem alike_binary (op : BinaryOp) (hleft : left.Alike copies left')
    (hright : right.Alike copies right') :
    Alike copies (binary .standard op left right) (binary .openCL op left' right') := by
  unfold binary
  rw [hleft.expr, hright.expr]
  exact Parallel.ite (hleft.code.seq fun _ _ => hright.code.andThen) (hleft.infixed op hright)

/-- OpenCL C has no form for copying an array and for clearing one. -/
theorem alike_builtinCall (h : Option.Rel (Operand.Alike copies) receiver receiver')
    (hargs : List.Forall₂ (Operand.Alike copies) args args') {m : BuiltinMethod}
    (hm : m = .arrayCopyTo ∨ m = .arrayClear → copies) :
    Alike copies (builtinCall (p.inC .standard) .standard receiver m args)
      (builtinCall (p.inC .openCL) .openCL receiver' m args') := by
  have hcount : Alike copies
      ((p.inC .standard).unsupported (.argumentCount m args.length) : Result Code)
      ((p.inC .openCL).unsupported (.argumentCount m args'.length) : Result Code) := by
    rw [hargs.length_eq]
    exact Context.alike_unsupported _ rfl
  cases m with
  | mulDiv =>
      rcases h with hobj | _ <;> rcases hargs with _ | ⟨hfactor, _ | ⟨hdivisor, _ | _⟩⟩
      case some.cons.cons.nil =>
        exact (alike_cast _ _ hobj).seq fun _ _ => (hfactor.atLeast _ _).seq fun _ _ =>
          (hdivisor.above _).andThen
      all_goals exact hcount
  | charAt =>
      rcases h with hobj | _ <;> rcases hargs with _ | ⟨hposition, _ | _⟩
      case some.cons.nil => exact hobj.indexed hposition
      all_goals exact hcount
  | substring | arrayToString => exact Context.alike_unmappedMethod _
  | arrayCopyTo =>
      rcases h with hobj | _
      · exact .copied (hm (.inl rfl)) _ _
      · exact hcount
  | arrayClear =>
      rcases h with hobj | _
      · exact .copied (hm (.inr rfl)) _ _
      · exact hcount
  | mathAbs | mathSqrt =>
      rcases h with _ | _ <;> rcases hargs with _ | ⟨hvalue, _ | _⟩
      case none.cons.nil => exact (Operand.alike_arguments (.cons hvalue .nil)).andThen
      all_goals exact hcount
  | consoleWrite | consoleWriteLine => exact hcount

theorem alike_instanceArgument (h : Option.Rel (Operand.Alike copies) receiver receiver') :
    Alike copies (instanceArgument receiver) (instanceArgument receiver') := by
  rcases h with ⟨h⟩ | _
  · unfold instanceArgument
    simp only [h.expr]
    split
    · exact (h.atLeast _ _).andThen
    · exact h.code
  · exact alike_pure _ _

theorem alike_userCall (h : Option.Rel (Operand.Alike copies) receiver receiver')
    (hargs : List.Forall₂ (Operand.Alike copies) args args') (owner : ClassId) (name : String)
    (isStatic : Bool) :
    Alike copies (userCall (p.inC .standard) receiver owner name isStatic args)
      (userCall (p.inC .openCL) receiver' owner name isStatic args') := by
  refine (Context.parallel_classOf owner).seq fun _ _ => ?_
  have hrest := alike_mapM hargs fun _ _ h => h.atLeast .argument .argument
  cases isStatic with
  | true => exact hrest.andThen
  | false => exact (alike_instanceArgument h).seq fun _ _ => hrest.andThen

theorem alike_resource (name : String) :
    Alike copies (resource (p.inC .standard) name) (resource (p.inC .openCL) name) :=
  Parallel.ite (alike_pure _ _) (Context.alike_unsupported _ rfl)

/-- The holes of an interpolated string. -/
def HolesAlike (copies : Prop) : List (Hole × Operand) → List (Hole × Operand) → Prop :=
  List.Forall₂ fun hole hole' => hole'.1 = hole.1 ∧ hole.2.Alike copies hole'.2

theorem alike_conversionLetters (format : Option Char) (ty : Ty) :
    Alike copies (conversionLetters (p.inC .standard) .standard format ty)
      (conversionLetters (p.inC .openCL) .openCL format ty) := by
  cases format with
  | some c =>
      exact Parallel.ite (alike_pure _ _) (Parallel.ite (alike_pure _ _)
        (Parallel.ite (alike_pure _ _) (Context.alike_unsupported _ rfl)))
  | none =>
      cases ty with
      | int kind => cases kind <;> exact alike_pure _ _
      | bool | enumeration | float | string => exact alike_pure _ _
      | _ => exact Context.alike_unmappedType _

theorem alike_conversion (hole : Hole) (ty : Ty) :
    Alike copies (conversion (p.inC .standard) .standard hole ty)
      (conversion (p.inC .openCL) .openCL hole ty) := (alike_conversionLetters _ _).andThen

theorem alike_holeFormats {holes holes' : List (Hole × Operand)}
    (h : HolesAlike copies holes holes') :
    Alike copies (holeFormats (p.inC .standard) .standard holes)
      (holeFormats (p.inC .openCL) .openCL holes') := by
  refine (alike_mapM h ?_).andThen
  rintro ⟨hole, arg⟩ ⟨hole', arg'⟩ ⟨rfl, harg⟩
  dsimp only
  rw [harg.expr]
  exact (alike_conversion _ _).andThen

/-- Standard C casts long integers and OpenCL C does not. -/
theorem alike_printedValue (h : o.Alike copies o') :
    Alike copies (printedValue .standard o) (printedValue .openCL o') := by
  by_cases hlong : o.expr.ty = .int .long
  · have hcast : printedValue .standard o = do
        return Code.parenthesized [.word "long", .gap, .word "long"] ++ .gap ::
          (← o.atLeast .prefixed) := if_pos hlong
    rw [hcast]
    exact (h.atLeast .prefixed .argument).mapLeft _
  · have hplain : printedValue .standard o = o.atLeast .argument := if_neg hlong
    rw [hplain]
    exact h.atLeast _ _

theorem alike_printfCall (format format' : String)
    (hargs : List.Forall₂ (Operand.Alike copies) args args') :
    Alike copies (printfCall .standard format args) (printfCall .openCL format' args') :=
  (alike_mapM hargs fun _ _ h => alike_printedValue h).andThen

/-- What is printed of a single value, a text as a format and any other behind its conversion. -/
theorem alike_print_value (h : o.Alike copies o') (lineEnd : String) :
    Alike copies (print (p.inC .standard) .standard lineEnd [.value o])
      (print (p.inC .openCL) .openCL lineEnd [.value o']) := by
  have hnone : ∀ format, Alike copies (printfCall .standard format [])
      (printfCall .openCL format []) := fun format => alike_printfCall _ _ .nil
  simp only [print, h.expr]
  split
  · exact hnone _
  · exact (alike_conversion _ _).seq fun _ _ => alike_printfCall _ _ (.cons h .nil)

theorem alike_print_holes {holes holes' : List (Hole × Operand)}
    (h : HolesAlike copies holes holes')
    (lineEnd suffix : String) :
    Alike copies (print (p.inC .standard) .standard lineEnd [.interpolated holes suffix])
      (print (p.inC .openCL) .openCL lineEnd [.interpolated holes' suffix]) := by
  refine (alike_holeFormats h).seq fun _ _ => alike_printfCall _ _ ?_
  rw [List.forall₂_map_left_iff, List.forall₂_map_right_iff]
  exact h.imp fun _ _ h => h.2

end CFamily

namespace Context

/-- The operand as it is printed in a dialect. -/
abbrev PrintsAlike (copies : Prop) (p : Program) (e : Expr) : Prop :=
  ((p.inC .standard).operand e).Alike copies ((p.inC .openCL).operand e)

theorem operandsAlike {args : List Expr} (h : ∀ e ∈ args, PrintsAlike copies p e) :
    List.Forall₂ (Operand.Alike copies) (args.map (p.inC .standard).operand)
      (args.map (p.inC .openCL).operand) := by
  rw [List.forall₂_map_left_iff, List.forall₂_map_right_iff, List.forall₂_same]
  exact h

theorem holesAlike {parts : List Part} (h : ∀ part ∈ parts, PrintsAlike copies p part.arg) :
    CFamily.HolesAlike copies ((p.inC .standard).holes parts) ((p.inC .openCL).holes parts) := by
  unfold CFamily.HolesAlike
  rw [holes_eq, holes_eq, List.forall₂_map_left_iff, List.forall₂_map_right_iff, List.forall₂_same]
  exact fun part hpart => ⟨rfl, h part hpart⟩

theorem alike_receiver {receiver : Option Expr} (h : ∀ e ∈ receiver, PrintsAlike copies p e) :
    Option.Rel (Operand.Alike copies) (receiver.map (p.inC .standard).operand)
      (receiver.map (p.inC .openCL).operand) := by
  cases receiver with
  | none => exact .none
  | some e => exact .some (h e rfl)

theorem length_shown (cx : Context) (args : List Expr) : (cx.shown args).length = args.length := by
  induction args with
  | nil => rfl
  | cons e rest ih => cases e <;> simp [shown, ih]

/-- Calls that print take no receiver and at most one argument, and look into it if it is an
interpolated string. -/
theorem alike_printCall {receiver receiver' : Option Operand} {args : List Expr} (m : BuiltinMethod)
    (lineEnd : String) (h : Option.Rel (Operand.Alike copies) receiver receiver')
    (hargs : ∀ e ∈ args, PrintsAlike copies p e ∧ ∀ child ∈ e.children,
      PrintsAlike copies p child) :
    Alike copies
      (CFamily.printCall (p.inC .standard) .standard receiver m lineEnd
        ((p.inC .standard).shown args))
      (CFamily.printCall (p.inC .openCL) .openCL receiver' m lineEnd
        ((p.inC .openCL).shown args)) := by
  rcases h with _ | _
  case some =>
    simp only [CFamily.printCall, length_shown]
    exact alike_unsupported _ rfl
  case none =>
    change Alike copies (CFamily.print _ _ _ _) (CFamily.print _ _ _ _)
    rcases args with _ | ⟨e, _ | ⟨second, rest⟩⟩
    · exact CFamily.alike_printfCall _ _ .nil
    · obtain ⟨he, hchildren⟩ := hargs e (by simp)
      cases e with
      | interpolated parts suffix ty =>
          exact CFamily.alike_print_holes (holesAlike fun part hpart =>
            hchildren part.arg (List.mem_map_of_mem hpart)) _ _
      | _ => exact CFamily.alike_print_value he _
    · rw [CFamily.print_many, CFamily.print_many]
      exact alike_unsupported _ rfl

/-- An expression is printed by both dialects or refused by both for the same reason, and so are its
operands. -/
theorem printsAlike {e : Expr} (he : ¬copies → e.everywhere (!·.copiesArray) = true) :
    PrintsAlike copies p e ∧ ∀ child ∈ e.children, PrintsAlike copies p child := by
  induction e using Expr.inductOn with
  | h e ih =>
  have ih : ∀ child ∈ e.children, PrintsAlike copies p child ∧
      ∀ inner ∈ child.children, PrintsAlike copies p inner := fun child hchild =>
    ih child hchild fun hcopies => (Expr.everywhere_iff.mp (he hcopies)).2 child hchild
  have hoperand : ∀ child ∈ e.children, PrintsAlike copies p child := fun child hchild =>
    (ih child hchild).1
  refine ⟨⟨rfl, ?_⟩, hoperand⟩
  change Alike copies ((p.inC .standard).code e) ((p.inC .openCL).code e)
  cases e with
  | literal value ty => exact alike_literal value
  | var | this => exact alike_pure _ _
  | const owner name ty => exact CFamily.alike_constant owner name
  | enumValue id index ty => exact alike_enumValue id index
  | field obj name ty => exact CFamily.alike_field (hoperand obj (by simp [Expr.children])) name
  | property obj accessor ty =>
      exact CFamily.alike_property accessor (hoperand obj (by simp [Expr.children]))
  | call receiver callee args ty =>
      have hargs : ∀ e ∈ args, e ∈ (Expr.call receiver callee args ty).children := fun e he => by
        simp [Expr.children, he]
      have hreceiver := @alike_receiver copies p receiver fun e he =>
        hoperand e (by simp [Expr.children, Option.mem_def.mp he])
      have hforall := operandsAlike fun e he => hoperand e (hargs e he)
      cases callee with
      | user owner name isStatic =>
          rw [code, code, receiverOperand_eq, receiverOperand_eq, operands_eq, operands_eq]
          exact CFamily.alike_userCall hreceiver hforall owner name isStatic
      | builtin m =>
          rw [code_builtinCall, code_builtinCall]
          have hm : m = .arrayCopyTo ∨ m = .arrayClear → copies := by
            intro hm
            by_contra hcopies
            have := (Expr.everywhere_iff.mp (he hcopies)).1
            rcases hm with rfl | rfl <;> simp [Expr.copiesArray] at this
          exact Parallel.ite (alike_printCall _ _ hreceiver fun e he => ih e (hargs e he))
            (Parallel.ite (alike_printCall _ _ hreceiver fun e he => ih e (hargs e he))
              (CFamily.alike_builtinCall hreceiver hforall hm))
  | index array position ty =>
      exact (hoperand array (by simp [Expr.children])).indexed
        (hoperand position (by simp [Expr.children]))
  | unary op operand ty =>
      have hoperand := hoperand operand (by simp [Expr.children])
      rw [code, code]
      exact Parallel.ite (hoperand.postfixed op) (hoperand.prefixed op)
  | binary left op right ty =>
      exact CFamily.alike_binary op (hoperand left (by simp [Expr.children]))
        (hoperand right (by simp [Expr.children]))
  | select cond onTrue onFalse ty =>
      exact (hoperand cond (by simp [Expr.children])).selected
        (hoperand onTrue (by simp [Expr.children])) (hoperand onFalse (by simp [Expr.children]))
  | interpolated parts suffix ty =>
      exact .faults (.refused (.unsupported (.cFamily .openCL) (.interpolation .openCL)))
  | resource name ty => exact CFamily.alike_resource name

end Context

end Emitter
