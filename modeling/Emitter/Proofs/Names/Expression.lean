import Emitter.Proofs.Expression.Shown

/-!
# Names in printed expressions

Which names the code of an expression has in it: those that its operators, literals and calls are
printed with, and the spellings of the types, functions, constants, enumerators and resources it
refers to. In ActionScript only the functions of the helper class are counted.
-/

namespace Emitter

open Layout Number Program Text

namespace Layout

/-- The lexeme is a name, be it the code's own or a supplied one. -/
def Lexeme.isName : Lexeme → Bool
  | word _ | supplied _ _ => true
  | _ => false

namespace Code

/-- The names in printed code, in order. -/
def names (code : Code) : List Lexeme := code.filter Lexeme.isName

variable {code code' : Code}

@[simp] theorem names_nil : names [] = [] := rfl

@[simp] theorem names_append : names (code ++ code') = code.names ++ code'.names :=
  List.filter_append ..

@[simp] theorem names_word (w : String) : names (.word w :: code) = .word w :: code.names := rfl

@[simp] theorem names_supplied (name : String) (supplier : Supplier) :
    names (.supplied name supplier :: code) = .supplied name supplier :: code.names := rfl

@[simp] theorem names_symbol (s : String) : names (.symbol s :: code) = code.names := rfl

@[simp] theorem names_number (s : String) : names (.number s :: code) = code.names := rfl

@[simp] theorem names_quoted (s : String) : names (.quoted s :: code) = code.names := rfl

@[simp] theorem names_gap : names (.gap :: code) = code.names := rfl

@[simp] theorem names_flatMap {α : Type} (items : List α) (f : α → Code) :
    names (items.flatMap f) = items.flatMap fun item => (f item).names :=
  List.filter_flatMap

@[simp] theorem names_parenthesized : (parenthesized code).names = code.names := by
  simp [parenthesized]

@[simp] theorem names_operator (text : String) : (operator text).names = [] := rfl

@[simp] theorem names_integer (n : Int) : (integer n).names = [] := by
  unfold integer
  split_ifs <;> rfl

@[simp] theorem names_commaSeparated (pieces : List Code) :
    (commaSeparated pieces).names = pieces.flatMap names := by
  unfold commaSeparated
  induction pieces with
  | nil => rfl
  | cons piece rest ih =>
      cases rest with
      | nil => simp
      | cons next rest => simpa [comma] using ih

end Code

end Layout

namespace Program

/-- The spelling of a constant in the C family. -/
def constantName (p : Program) (owner : ClassId) (name : String) : String :=
  (p.classes[owner.index.toNat]?.map fun c =>
    CFamily.constName c (((c.findConst name).map ConstDef.emittedName).getD name)).getD ""

/-- The value of an enumeration that a reference points at. -/
def enumerator? (p : Program) (id : EnumId) (index : UInt64) : Option (EnumDef × EnumValue) :=
  (p.enums[id.index.toNat]?).bind fun e => (e.values[index.toNat]?).map (e, ·)

/-- The spelling of a value of an enumeration in the C family. -/
def enumeratorName (p : Program) (id : EnumId) (index : UInt64) : String :=
  ((p.enumerator? id index).map fun entry =>
    entry.1.name ++ "_" ++ upperSnakeCase entry.2.name).getD ""

end Program

/-- A name in printed code: one that the printed construct always has, one that is coined where it
is declared, or the spelling of a declaration of the program. -/
inductive PrintedName
  | fixed (lexeme : Lexeme)
  | coined (word : String)
  | type (id : ClassId)
  | function (owner : ClassId) (name : String)
  | constructor (id : ClassId)
  | constant (owner : ClassId) (name : String)
  | enumerator (id : EnumId) (index : UInt64)
  | resource (name : String)

namespace PrintedName

/-- The name as it is printed in the C family. -/
def lexeme (p : Program) : PrintedName → Lexeme
  | fixed lexeme => lexeme
  | coined word => .word word
  | type id => .word (p.className id)
  | function owner name => .word (CFamily.functionName (p.className owner) name)
  | constructor id => .word (CFamily.constructName (p.className id))
  | constant owner name => .word (p.constantName owner name)
  | enumerator id index => .word (p.enumeratorName id index)
  | resource name => .word (CFamily.resourceName name)

/-- The value or resource that the name refers to is there. -/
def isPresent (p : Program) : PrintedName → Bool
  | enumerator id index => (p.enumerator? id index).isSome
  | resource name => p.resources.contains name
  | _ => true

/-- The name, unless what it refers to is missing: nothing is printed for a missing value or
resource. -/
def ifPresent (p : Program) (n : PrintedName) : List PrintedName :=
  if n.isPresent p then [n] else []

/-- A word of the language. -/
def word (w : String) : PrintedName := fixed (.word w)

def header (name : String) (h : Header) : PrintedName := fixed (.supplied name (.header h))

def helper (name : String) (h : Helper) : PrintedName := fixed (.supplied name (.helper h))

/-- What supplies the name. -/
def supplier? : PrintedName → Option Supplier
  | fixed lexeme => lexeme.supplier?
  | _ => none

end PrintedName

/-- The names that are kept account of: all of them in the C family, and those of the helper class
in ActionScript. -/
def Target.counts : Target → Lexeme → Bool
  | .actionScript, l => l.supplier?.isSome
  | .cFamily _, l => l.isName

namespace CFamily

/-- The names that a built-in accessor is printed with. -/
def propertyNames (d : Dialect) : BuiltinProperty → List PrintedName
  | .signExtendByte => [.fixed (d.intType .sbyte)]
  | .lowByte => [.fixed (d.intType .byte)]
  | .stringLength =>
    match d with
    | .standard => [.word "int", .header "strlen" .string]
    | .openCL => [.helper "strlen" .stringLength]

/-- The types of the values that a call prints. -/
def printedTypes : List Expr → List Ty
  | [.interpolated parts _ _] => parts.map (·.arg.ty)
  | [.literal (.str _) _] => []
  | args => args.map Expr.ty

/-- The names that a built-in method is printed with. A 64-bit integer is cast before it is printed,
where the dialect casts it. -/
def methodNames (d : Dialect) (args : List Expr) : BuiltinMethod → List PrintedName
  | .mulDiv => [.word "int", .fixed (d.intType .long)]
  | .arrayCopyTo => [.header "memmove" .string, .word "sizeof"]
  | .arrayClear => [.header "memset" .string, .word "sizeof"]
  | .mathAbs =>
    if args.any (·.ty.isFloating) then [.header "fabs" .math] else [.header "abs" .stdlib]
  | .mathSqrt => [.header "sqrt" .math]
  | .consoleWrite | .consoleWriteLine =>
    .header "printf" .stdio ::
      if d.longCast.isSome ∧ .int .long ∈ printedTypes args then [.word "long"] else []
  | .charAt | .substring | .arrayToString => []

/-- The names that a comparison is printed with. -/
def comparisonNames (d : Dialect) (op : BinaryOp) (left right : Ty) : List PrintedName :=
  if (op = .eq ∨ op = .notEq) ∧ comparesStrings left right then
    match d with
    | .standard => [.header "strcmp" .string]
    | .openCL => [.helper "streq" .stringEquality]
  else []

/-- The names that an expression is printed with, besides those in its operands. -/
def own (cx : Context) (d : Dialect) : Expr → List PrintedName
  | .literal (.bool b) _ => [.header (if b then "true" else "false") .stdbool]
  | .literal .null _ => [.header "NULL" .stddef]
  | .var name _ | .field _ name _ => [.coined (cx.target.localName name)]
  | .this _ => [.word "self"]
  | .const owner name _ => [.constant owner name]
  | .enumValue id index _ => PrintedName.ifPresent cx.program (.enumerator id index)
  | .property _ accessor _ => propertyNames d accessor
  | .call receiver (.user owner name isStatic) _ _ =>
    .function owner name :: if !isStatic && receiver.isNone then [.word "self"] else []
  | .call _ (.builtin m) args _ => methodNames d args m
  | .binary left op right _ => comparisonNames d op left.ty right.ty
  | .resource name _ => PrintedName.ifPresent cx.program (.resource name)
  | _ => []

end CFamily

namespace ActionScript

/-- The functions of the helper class that a built-in method is printed with. -/
def helperNames (args : List Expr) : BuiltinMethod → List PrintedName
  | .substring =>
    if args.head?.any Expr.hasSideEffect then [.helper "substring" .substring] else []
  | .arrayCopyTo => [.helper "copyArray" .copyArray]
  | .arrayToString => [.helper "bytesToString" .bytesToString]
  | .arrayClear => [.helper "clearArray" .clearArray]
  | _ => []

/-- The functions of the helper class that an expression calls itself. -/
def own : Expr → List PrintedName
  | .call _ (.builtin m) args _ => helperNames args m
  | _ => []

end ActionScript

namespace Context

/-- The names that an expression is printed with, besides those in its operands. -/
def own (cx : Context) (e : Expr) : List PrintedName :=
  match cx.target with
  | .actionScript => ActionScript.own e
  | .cFamily d => CFamily.own cx d e

/-- The receiver of a call is not printed: that of a static function in the C family. -/
def dropsReceiver (cx : Context) (isStatic : Bool) : Bool :=
  isStatic && cx.target ≠ .actionScript

/-- Only the first argument is printed. -/
def takesFirst (cx : Context) (m : BuiltinMethod) : Bool :=
  m = .consoleWriteLine && cx.target = .actionScript

/-- The values that a text with values is printed with. -/
def spread : List Expr → List Expr
  | [.interpolated parts _ _] => parts.map Part.arg
  | args => args

/-- The arguments of a built-in method that are printed. -/
def printedArgs (cx : Context) (m : BuiltinMethod) (args : List Expr) : List Expr :=
  if cx.takesFirst m then args.take 1
  else if m = .consoleWrite ∨ m = .consoleWriteLine then spread args
  else args

/-- The operands of an expression that are printed. -/
def printedChildren (cx : Context) : Expr → List Expr
  | .call receiver (.user _ _ isStatic) args _ =>
    (if cx.dropsReceiver isStatic then [] else receiver.toList) ++ args
  | .call receiver (.builtin m) args _ => receiver.toList ++ cx.printedArgs m args
  | e => e.children

mutual

/-- The names in the printed form of an expression. -/
def names (cx : Context) : Expr → List PrintedName
  | .literal value ty => cx.own (.literal value ty)
  | .var name ty => cx.own (.var name ty)
  | .this ty => cx.own (.this ty)
  | .const owner name ty => cx.own (.const owner name ty)
  | .enumValue id index ty => cx.own (.enumValue id index ty)
  | .field obj name ty => cx.own (.field obj name ty) ++ names cx obj
  | .property obj accessor ty => cx.own (.property obj accessor ty) ++ names cx obj
  | .call receiver (.user owner name isStatic) args ty =>
    cx.own (.call receiver (.user owner name isStatic) args ty) ++
      (if cx.dropsReceiver isStatic then [] else receiverNames cx receiver) ++ argNames cx args
  | .call receiver (.builtin m) args ty =>
    cx.own (.call receiver (.builtin m) args ty) ++ receiverNames cx receiver ++
      if cx.takesFirst m then firstNames cx args else argNames cx args
  | .index array position ty =>
    cx.own (.index array position ty) ++ names cx array ++ names cx position
  | .unary op operand ty => cx.own (.unary op operand ty) ++ names cx operand
  | .binary left op right ty =>
    cx.own (.binary left op right ty) ++ names cx left ++ names cx right
  | .select cond onTrue onFalse ty =>
    cx.own (.select cond onTrue onFalse ty) ++ names cx cond ++ names cx onTrue ++
      names cx onFalse
  | .interpolated parts suffix ty =>
    cx.own (.interpolated parts suffix ty) ++ partNames cx parts
  | .resource name ty => cx.own (.resource name ty)

def receiverNames (cx : Context) : Option Expr → List PrintedName
  | none => []
  | some e => names cx e

def argNames (cx : Context) : List Expr → List PrintedName
  | [] => []
  | e :: rest => names cx e ++ argNames cx rest

def firstNames (cx : Context) : List Expr → List PrintedName
  | [] => []
  | e :: _ => names cx e

def partNames (cx : Context) : List Part → List PrintedName
  | [] => []
  | .mk _ e :: rest => names cx e ++ partNames cx rest

end

variable {cx : Context} {n : PrintedName}

theorem mem_receiverNames {receiver : Option Expr} :
    n ∈ cx.receiverNames receiver ↔ ∃ e ∈ receiver.toList, n ∈ cx.names e := by
  cases receiver <;> simp [receiverNames]

theorem mem_argNames {args : List Expr} :
    n ∈ cx.argNames args ↔ ∃ e ∈ args, n ∈ cx.names e := by
  induction args with
  | nil => simp [argNames]
  | cons e rest ih => simp [argNames, ih]

theorem mem_firstNames {args : List Expr} :
    n ∈ cx.firstNames args ↔ ∃ e ∈ args.take 1, n ∈ cx.names e := by
  cases args <;> simp [firstNames]

theorem mem_partNames {parts : List Part} :
    n ∈ cx.partNames parts ↔ ∃ e ∈ parts.map Part.arg, n ∈ cx.names e := by
  induction parts with
  | nil => simp [partNames]
  | cons part rest ih =>
      cases part
      simp [partNames, ih, Part.arg]

theorem own_interpolated (parts : List Part) (suffix : String) (ty : Ty) :
    cx.own (.interpolated parts suffix ty) = [] := by
  unfold own
  cases cx.target <;> rfl

theorem mem_spread {args : List Expr} :
    (∃ e ∈ spread args, n ∈ cx.names e) ↔ ∃ e ∈ args, n ∈ cx.names e := by
  unfold spread
  split
  · simp [names, own_interpolated, mem_partNames]
  · rfl

theorem mem_printedArgs {m : BuiltinMethod} {args : List Expr} :
    (∃ e ∈ cx.printedArgs m args, n ∈ cx.names e) ↔
      n ∈ if cx.takesFirst m then cx.firstNames args else cx.argNames args := by
  unfold printedArgs
  split_ifs
  · rw [mem_firstNames]
  · rw [mem_spread, mem_argNames]
  · rw [mem_argNames]

/-- The names of an expression are its own and those of its printed operands. -/
theorem mem_names {e : Expr} :
    n ∈ cx.names e ↔ n ∈ cx.own e ∨ ∃ child ∈ cx.printedChildren e, n ∈ cx.names child := by
  cases e with
  | call receiver callee args ty =>
      cases callee with
      | user owner name isStatic =>
          cases hdrops : cx.dropsReceiver isStatic <;>
            simp [names, printedChildren, hdrops, mem_receiverNames, mem_argNames, or_and_right,
              exists_or]
      | builtin m =>
          simp [names, printedChildren, mem_receiverNames, ← mem_printedArgs, or_and_right,
            exists_or]
  | interpolated parts suffix ty =>
      simp [names, printedChildren, Expr.children, mem_partNames]
  | _ => simp [names, printedChildren, Expr.children]

theorem sizeOf_lt_of_mem_printedChildren {e child : Expr} (h : child ∈ cx.printedChildren e) :
    sizeOf child < sizeOf e := by
  have hspread : ∀ args : List Expr, ∀ child ∈ spread args, sizeOf child < sizeOf args := by
    intro args child h
    unfold spread at h
    split at h
    case h_1 parts suffix ty =>
      have hpart := Expr.sizeOf_lt_of_mem_children (e := .interpolated parts suffix ty) h
      simp only [List.cons.sizeOf_spec]
      omega
    case h_2 => exact List.sizeOf_lt_of_mem h
  cases e with
  | call receiver callee args ty =>
      cases callee with
      | user owner name isStatic =>
          refine Expr.sizeOf_lt_of_mem_children (List.mem_append.mpr ?_)
          simp only [printedChildren, List.mem_append] at h
          split_ifs at h <;> simp_all
      | builtin m =>
          rcases List.mem_append.mp h with h | h
          · exact Expr.sizeOf_lt_of_mem_children (List.mem_append_left _ h)
          · unfold printedArgs at h
            split_ifs at h
            · exact Expr.sizeOf_lt_of_mem_children
                (List.mem_append_right _ (List.mem_of_mem_take h))
            · have := hspread args child h
              simp only [Expr.call.sizeOf_spec]
              omega
            · exact Expr.sizeOf_lt_of_mem_children (List.mem_append_right _ h)
  | _ => exact Expr.sizeOf_lt_of_mem_children h

end Context

end Emitter
