import Emitter.Proofs.Reading.Grammar
import Emitter.Target.Expression

/-!
# What printed expressions mean

The tree that a target's reader is to find in the printed form of an expression. Types are gone,
names stand as they are rendered, and every built-in has the tree of its template with the trees of
its operands in it. Only `MulDiv` looks into an operand, since its factor is printed without
parentheses.
-/

namespace Emitter

open Number Program Reading Text

/-- An expression with its tree. -/
structure Term where
  expr : Expr
  tree : Tree

namespace Reading.Tree

/-- A tree behind a minus sign, if there is one. -/
def signed (negative : Bool) (magnitude : Tree) : Tree :=
  if negative then .prefixed "-" magnitude else magnitude

/-- The tree of `left * t`, where the first `depth` operators of `t` are of the same level as the
product and not between parentheses, so that they come after it. -/
def graft (left : Tree) : Nat → Tree → Tree
  | depth + 1, .binary op first second => .binary op (left.graft depth first) second
  | _, t => .binary "*" left t

end Reading.Tree

namespace Context

open Reading

def integerTree (n : Int) : Tree := .signed (n < 0) (.number (toString n.natAbs))

def floatTree (x : Binary64) : Tree :=
  if x.isNaN then .name "NaN"
  else .signed x.isNegative (if x.isInfinite then .name "Infinity" else .number x.magnitudeText)

def truthTree (value : Bool) : Tree := .name (if value then "true" else "false")

def nullTree (cx : Context) : Tree :=
  match cx.target with
  | .actionScript => .name "null"
  | .cFamily _ => .name "NULL"

def literalTree (cx : Context) : Literal → Tree
  | .int n => integerTree n.toInt
  | .float x => floatTree x
  | .bool b => truthTree b
  | .str s => .text s
  | .null => cx.nullTree

/-- The tree of what is not printed. -/
def noTree : Tree := .items []

def enumTree (cx : Context) (id : EnumId) (index : UInt64) : Tree :=
  match cx.program.enums[id.index.toNat]? with
  | none => noTree
  | some e =>
    match e.values[index.toNat]? with
    | none => noTree
    | some value =>
      match cx.target with
      | .actionScript => .member (.name e.name) "." (upperSnakeCase value.name)
      | .cFamily _ => .name (e.name ++ "_" ++ upperSnakeCase value.name)

mutual

def valueTree (cx : Context) : ConstValue → Tree
  | .int n => integerTree n.toInt
  | .float x => floatTree x
  | .bool b => truthTree b
  | .str s => .text s
  | .enumValue id index => cx.enumTree id index
  | .array items => .items (valueTrees cx items)

def valueTrees (cx : Context) : List ConstValue → List Tree
  | [] => []
  | item :: rest => valueTree cx item :: valueTrees cx rest

end

/-- A class of the program by its position. -/
def class? (cx : Context) (id : ClassId) : Option ClassDef := cx.program.classes[id.index.toNat]?

/-- The constant that ActionScript replaces by its value. -/
def inlined? (cx : Context) (owner : ClassId) (name : String) : Option ConstDef :=
  match cx.target with
  | .actionScript =>
    (cx.class? owner).bind fun c =>
      c.consts.find? fun k => k.name = name && k.visibility ≠ .exported
  | .cFamily _ => none

/-- A name behind its class's name, except inside the class itself. -/
def qualifiedTree (cx : Context) (owner : ClassId) (c : ClassDef) (name : String) : Tree :=
  if cx.current = some owner then .name name else .member (.name c.name) "." name

def constTree (cx : Context) (owner : ClassId) (name : String) : Tree :=
  match cx.class? owner with
  | none => noTree
  | some c =>
    let emitted := ((c.findConst name).map ConstDef.emittedName).getD name
    match cx.target with
    | .cFamily _ => .name (CFamily.constName c emitted)
    | .actionScript =>
      match cx.inlined? owner name with
      | some k => cx.valueTree k.value
      | none => cx.qualifiedTree owner c (upperSnakeCase emitted)

def thisTree (cx : Context) : Tree :=
  match cx.target with
  | .actionScript => .name "this"
  | .cFamily _ => .name "self"

/-- The symbol in front of a field. -/
def selector (cx : Context) (ty : Ty) : String :=
  match cx.target, ty with
  | .cFamily _, .classRef _ => "->"
  | _, _ => "."

def fieldTree (cx : Context) (obj : Term) (name : String) : Tree :=
  .member obj.tree (cx.selector obj.expr.ty) (cx.target.localName name)

def unaryTree (op : UnaryOp) (operand : Tree) : Tree :=
  if op.isPostfix then .postfixed op.text operand else .prefixed op.text operand

/-- Strings are compared by a function in the C family, and integers divided by one in
ActionScript. -/
def binaryTree (cx : Context) (op : BinaryOp) (ty : Ty) (left right : Term) : Tree :=
  match cx.target with
  | .actionScript =>
    if op = .div ∧ ty.isInteger then .call (.name "int") [.binary "/" left.tree right.tree]
    else .binary op.text left.tree right.tree
  | .cFamily d =>
    if (op = .eq ∨ op = .notEq) ∧ CFamily.comparesStrings left.expr.ty right.expr.ty then
      match d with
      | .standard =>
        .binary op.text (.call (.name "strcmp") [left.tree, right.tree]) (.number "0")
      | .openCL =>
        let equal : Tree := .call (.name "streq") [left.tree, right.tree]
        if op = .notEq then .prefixed "!" equal else equal
    else .binary op.text left.tree right.tree

/-- The instance in front of a C function's arguments. -/
def instanceTree : Option Term → Tree
  | none => .name "self"
  | some obj =>
    match obj.expr.ty with
    | .classStorage _ => .prefixed "&" obj.tree
    | _ => obj.tree

def userCallTree (cx : Context) (receiver : Option Term) (owner : ClassId) (name : String)
    (isStatic : Bool) (args : List Term) : Tree :=
  match cx.target with
  | .actionScript =>
    let callee : Tree :=
      match receiver with
      | some obj => .member obj.tree "." (cx.target.localName name)
      | none =>
        match isStatic, cx.class? owner with
        | true, some c => cx.qualifiedTree owner c (cx.target.localName name)
        | _, _ => .name (cx.target.localName name)
    .call callee (args.map Term.tree)
  | .cFamily _ =>
    match cx.class? owner with
    | none => noTree
    | some c =>
      .call (.name (CFamily.functionName c.name name))
        ((if isStatic then [] else [instanceTree receiver]) ++ args.map Term.tree)

/-- A sum of texts and arguments. -/
def sumTree : Tree → List (Hole × Term) → Tree
  | sum, [] => sum
  | sum, (hole, arg) :: rest =>
    let before : Tree := if hole.before ≠ "" then .binary "+" sum (.text hole.before) else sum
    sumTree (.binary "+" before arg.tree) rest

/-- An interpolated string starts with a text, also where that is empty. -/
def interpolatedTree (holes : List (Hole × Term)) (suffix : String) : Tree :=
  match holes with
  | [] => .text suffix
  | (hole, arg) :: rest =>
    let sum := sumTree (.binary "+" (.text hole.before) arg.tree) rest
    if suffix ≠ "" then .binary "+" sum (.text suffix) else sum

/-- A function of the helper class. -/
def helperTree (name : String) (args : List Tree) : Tree :=
  .call (.member (.name "Ci") "." name) args

/-- The number of operators in an expression that come after a product with it: the operators of
the product's own level down its left side. -/
def factorDepth (cx : Context) : Expr → Nat
  | .binary left op right ty =>
    if cx.target.priority (.binary left op right ty) = .mul then factorDepth cx left + 1 else 0
  | _ => 0

/-- `left * factor`, as it is read. -/
def productTree (cx : Context) (left : Tree) (factor : Term) : Tree :=
  left.graft (cx.factorDepth factor.expr) factor.tree

end Context

namespace ActionScript

open Reading

def propertyTree : BuiltinProperty → Tree → Tree
  | .signExtendByte, obj => .binary "-" (.binary "^" obj (.number "128")) (.number "128")
  | .lowByte, obj => .binary "&" obj (.number "0xff")
  | .stringLength, obj => .member obj "." "length"

def methodTree (cx : Context) (obj : Term) : BuiltinMethod → List Term → Tree
  | .mulDiv, [factor, divisor] =>
    .call (.name "int") [.binary "/" (cx.productTree obj.tree factor) divisor.tree]
  | .charAt, [position] => .call (.member obj.tree "." "charCodeAt") [position.tree]
  | .substring, [start, length] =>
    if start.expr.hasSideEffect then
      Context.helperTree "substring" [obj.tree, start.tree, length.tree]
    else
      .call (.member obj.tree "." "substring")
        [start.tree, .binary "+" start.tree length.tree]
  | .arrayCopyTo, [start, target, targetStart, length] =>
    Context.helperTree "copyArray"
      [obj.tree, start.tree, target.tree, targetStart.tree, length.tree]
  | .arrayToString, [start, length] =>
    Context.helperTree "bytesToString" [obj.tree, start.tree, length.tree]
  | .arrayClear, [] => Context.helperTree "clearArray" [obj.tree]
  | _, _ => Context.noTree

def builtinTree (cx : Context) (receiver : Option Term) (m : BuiltinMethod) (args : List Term) :
    Tree :=
  match receiver, m with
  | some obj, m => methodTree cx obj m args
  | none, .consoleWriteLine =>
    .call (.name "trace") [(args.head?.map Term.tree).getD (.text "")]
  | none, .mathAbs => .call (.member (.name "Math") "." "abs") (args.map Term.tree)
  | none, .mathSqrt => .call (.member (.name "Math") "." "sqrt") (args.map Term.tree)
  | none, _ => Context.noTree

end ActionScript

namespace CFamily

open Layout Reading

def propertyTree (d : Dialect) : BuiltinProperty → Tree → Tree
  | .signExtendByte, obj => .cast [(d.intType .sbyte).text] obj
  | .lowByte, obj => .cast [(d.intType .byte).text] obj
  | .stringLength, obj =>
    match d with
    | .standard => .cast ["int"] (.call (.name "strlen") [obj])
    | .openCL => .call (.name "strlen") [obj]

/-- The size of an array's first element. -/
def elementSizeTree (array : Tree) : Tree := .prefixed "sizeof" (.element array (.number "0"))

def arrayMethodTree (d : Dialect) (array : Term) (size : Tree) (m : BuiltinMethod)
    (args : List Term) : Tree :=
  match d, m, args with
  | .standard, .arrayCopyTo, [start, target, targetStart, length] =>
    .call (.name "memmove") [.binary "+" target.tree targetStart.tree,
      .binary "+" array.tree start.tree, .binary "*" length.tree size]
  | .standard, .arrayClear, [] =>
    match array.expr.ty with
    | .array _ true (some length) =>
      .call (.name "memset") [array.tree, .number "0",
        .binary "*" (.number (toString length.toNat)) size]
    | _ => Context.noTree
  | _, _, _ => Context.noTree

def builtinTree (cx : Context) (d : Dialect) (receiver : Option Term) (m : BuiltinMethod)
    (args : List Term) : Tree :=
  match m, receiver, args with
  | .mulDiv, some obj, [factor, divisor] =>
    .cast ["int"] (.binary "/"
      (cx.productTree (.cast [(d.intType .long).text] obj.tree) factor) divisor.tree)
  | .charAt, some obj, [position] => .element obj.tree position.tree
  | .arrayCopyTo, some obj, args =>
    arrayMethodTree d obj (elementSizeTree obj.tree) .arrayCopyTo args
  | .arrayClear, some obj, args =>
    arrayMethodTree d obj (elementSizeTree obj.tree) .arrayClear args
  | .mathAbs, none, [value] =>
    .call (.name (if value.expr.ty.isFloating then "fabs" else "abs")) [value.tree]
  | .mathSqrt, none, [value] => .call (.name "sqrt") [value.tree]
  | _, _, _ => Context.noTree

/-- What is printed, with the trees of its values. -/
inductive ShownTerm
  | interpolated (holes : List (Hole × Term)) (suffix : String)
  | value (value : Term)

/-- A value as an argument of `printf`. -/
def printedTree (d : Dialect) (value : Term) : Tree :=
  match d with
  | .standard =>
      if value.expr.ty = .int .long then .cast ["long", "long"] value.tree else value.tree
  | .openCL => value.tree

/-- A call of `printf` with a format that can be printed. -/
def printfTree (d : Dialect) (format : Result String) (values : List Term) : Tree :=
  match format with
  | .ok format => .call (.name "printf") (.text format :: values.map (printedTree d))
  | .error _ => Context.noTree

def printTree (cx : Context) (d : Dialect) (lineEnd : String) : List ShownTerm → Tree
  | [] => printfTree d (.ok lineEnd) []
  | [.interpolated holes suffix] =>
    let formats := holeFormats cx d (holes.map fun (hole, arg) => (hole, cx.operand arg.expr))
    printfTree d (formats.map (· ++ formatText suffix ++ lineEnd)) (holes.map Prod.snd)
  | [.value arg] =>
    match arg.expr with
    | .literal (.str text) _ => printfTree d (.ok (formatText text ++ lineEnd)) []
    | e =>
      printfTree d ((conversion cx d plainHole e.ty).map (·.text ++ lineEnd)) [arg]
  | _ => Context.noTree

end CFamily

namespace Context

open Reading

def propertyTree (cx : Context) (accessor : BuiltinProperty) (obj : Tree) : Tree :=
  match cx.target with
  | .actionScript => ActionScript.propertyTree accessor obj
  | .cFamily d => CFamily.propertyTree d accessor obj

mutual

/-- The tree of an expression's printed form. -/
def tree (cx : Context) : Expr → Tree
  | .literal value _ => cx.literalTree value
  | .var name _ => .name (cx.target.localName name)
  | .this _ => cx.thisTree
  | .const owner name _ => cx.constTree owner name
  | .enumValue id index _ => cx.enumTree id index
  | .field obj name _ => cx.fieldTree ⟨obj, tree cx obj⟩ name
  | .property obj accessor _ => cx.propertyTree accessor (tree cx obj)
  | .call receiver (.user owner name isStatic) args _ =>
    cx.userCallTree (receiverTerm cx receiver) owner name isStatic (terms cx args)
  | .call receiver (.builtin m) args _ =>
    match cx.target, m with
    | .actionScript, m =>
      ActionScript.builtinTree cx (receiverTerm cx receiver) m (terms cx args)
    | .cFamily d, .consoleWrite => CFamily.printTree cx d "" (shownTerms cx args)
    | .cFamily d, .consoleWriteLine => CFamily.printTree cx d "\n" (shownTerms cx args)
    | .cFamily d, m => CFamily.builtinTree cx d (receiverTerm cx receiver) m (terms cx args)
  | .index array position _ => .element (tree cx array) (tree cx position)
  | .unary op operand _ => unaryTree op (tree cx operand)
  | .binary left op right ty =>
    cx.binaryTree op ty ⟨left, tree cx left⟩ ⟨right, tree cx right⟩
  | .select cond onTrue onFalse _ =>
    .select (tree cx cond) (tree cx onTrue) (tree cx onFalse)
  | .interpolated parts suffix _ => interpolatedTree (holeTerms cx parts) suffix
  | .resource name _ => .name (CFamily.resourceName name)

def receiverTerm (cx : Context) : Option Expr → Option Term
  | none => none
  | some e => some ⟨e, tree cx e⟩

def terms (cx : Context) : List Expr → List Term
  | [] => []
  | e :: rest => ⟨e, tree cx e⟩ :: terms cx rest

def holeTerms (cx : Context) : List Part → List (Hole × Term)
  | [] => []
  | .mk hole e :: rest => (hole, ⟨e, tree cx e⟩) :: holeTerms cx rest

def shownTerms (cx : Context) : List Expr → List CFamily.ShownTerm
  | [] => []
  | .interpolated parts suffix _ :: rest =>
    .interpolated (holeTerms cx parts) suffix :: shownTerms cx rest
  | e :: rest => .value ⟨e, tree cx e⟩ :: shownTerms cx rest

end

/-- An expression as a term. -/
def term (cx : Context) (e : Expr) : Term := ⟨e, cx.tree e⟩

end Context

end Emitter
