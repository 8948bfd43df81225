import Emitter.Json.Decoder
import Emitter.Json.Parser
import Emitter.Program.FormName
import Emitter.Program.Mention

/-!
# Reading programs from JSON

The record and choice forms of every part of a program. Types, constant values, expressions and
statements contain values of their own kind, so their readers take as fuel how many of them may be
nested; each takes at least one array or object, so the nesting limit of the text is fuel enough.
-/

namespace Emitter.Program

open Json (Decoder)
open Json.Decoder

/-- Arrays and objects may be nested this deep. -/
def nestingLimit : Nat := 127

def enumIdDecoder : Decoder EnumId := Decoder.map EnumId.mk uint64

def classIdDecoder : Decoder ClassId := Decoder.map ClassId.mk uint64

/-- A choice whose cases all carry no data, by their names. -/
def named {α : Type} (formName : α → String) (all : List α) : Decoder α :=
  choice fun name => (all.find? (formName · = name)).map .bare

def visibilityDecoder : Decoder Visibility := named Visibility.formName Visibility.all

def intKindDecoder : Decoder IntKind := named IntKind.formName IntKind.all

def floatKindDecoder : Decoder FloatKind := named FloatKind.formName FloatKind.all

def unaryOpDecoder : Decoder UnaryOp := named UnaryOp.formName UnaryOp.all

def binaryOpDecoder : Decoder BinaryOp := named BinaryOp.formName BinaryOp.all

def assignOpDecoder : Decoder AssignOp := named AssignOp.formName AssignOp.all

def propertyDecoder : Decoder BuiltinProperty :=
  named BuiltinProperty.formName BuiltinProperty.all

def methodDecoder : Decoder BuiltinMethod := named BuiltinMethod.formName BuiltinMethod.all

def symbolIdDecoder : Decoder SymbolId :=
  choice fun
    | "enum" => some (.holding (enumIdDecoder.map .enumeration))
    | "class" => some (.holding (classIdDecoder.map .classDef))
    | _ => none

def docDecoder : Decoder Doc :=
  record ["summary", "details"] fun budget slots => do
    let [summary, details] := slots | none
    return ⟨← required text budget summary, ← optional (list text) [] budget details⟩

def tyDecoder : Nat → Decoder Ty
  | 0 => fun _ _ => none
  | fuel + 1 =>
    choice fun
      | "void" => some (.bare .void)
      | "bool" => some (.bare .bool)
      | "int" => some (.holding (intKindDecoder.map .int))
      | "float" => some (.holding (floatKindDecoder.map .float))
      | "string" => some (.bare .string)
      | "null" => some (.bare .null)
      | "enum" => some (.holding (enumIdDecoder.map .enumeration))
      | "array" => some <| .holding <|
        record ["element", "storage", "length"] fun budget slots => do
          let [element, storage, length] := slots | none
          return .array (← required (tyDecoder fuel) budget element)
            (← optional truth false budget storage)
            (← optional (nullable uint32) none budget length)
      | "class_storage" => some (.holding (classIdDecoder.map .classStorage))
      | "class_ref" => some (.holding (classIdDecoder.map .classRef))
      | _ => none

/-- Types that are themselves within the nesting limit. -/
def type : Decoder Ty := tyDecoder (nestingLimit + 1)

def constValueDecoder : Nat → Decoder ConstValue
  | 0 => fun _ _ => none
  | fuel + 1 =>
    choice fun
      | "int" => some (.holding (int64.map .int))
      | "float" => some (.holding (Decoder.float.map .float))
      | "bool" => some (.holding (truth.map .bool))
      | "str" => some (.holding (text.map .str))
      | "enum_value" => some <| .holding <|
        record ["enum_id", "index"] fun budget slots => do
          let [id, index] := slots | none
          return .enumValue (← required enumIdDecoder budget id) (← required uint64 budget index)
      | "array" => some (.holding ((list (constValueDecoder fuel)).map .array))
      | _ => none

def literalDecoder : Decoder Literal :=
  choice fun
    | "int" => some (.holding (int64.map .int))
    | "float" => some (.holding (Decoder.float.map .float))
    | "bool" => some (.holding (truth.map .bool))
    | "str" => some (.holding (text.map .str))
    | "null" => some (.bare .null)
    | _ => none

def calleeDecoder : Decoder Callee :=
  choice fun
    | "builtin" => some (.holding (methodDecoder.map .builtin))
    | "user" => some <| .holding <|
      record ["class", "name", "is_static"] fun budget slots => do
        let [owner, name, isStatic] := slots | none
        return .user (← required classIdDecoder budget owner) (← required text budget name)
          (← optional truth false budget isStatic)
    | _ => none

/-- A part of an interpolated string whose arguments are read by `expr`. -/
def partDecoder (expr : Decoder Expr) : Decoder Part :=
  record ["prefix", "arg", "width", "format", "precision"] fun budget slots => do
    let [before, arg, width, format, precision] := slots | none
    let before ← optional text "" budget before
    let arg ← required expr budget arg
    let width ← optional (nullable int32) none budget width
    let format ← optional (nullable char) none budget format
    let precision ← optional (nullable uint32) none budget precision
    return .mk ⟨before, width, format, precision⟩ arg

/-- An expression's form without its type, with expressions in it read by `expr`. -/
def exprFormDecoder (expr : Decoder Expr) : Decoder (Ty → Expr) :=
  choice fun
    | "literal" => some (.holding (literalDecoder.map .literal))
    | "var" => some (.holding (text.map .var))
    | "this" => some (.bare .this)
    | "const" => some <| .holding <|
      record ["class", "name"] fun budget slots => do
        let [owner, name] := slots | none
        return .const (← required classIdDecoder budget owner) (← required text budget name)
    | "enum_value" => some <| .holding <|
      record ["enum_id", "index"] fun budget slots => do
        let [id, index] := slots | none
        return .enumValue (← required enumIdDecoder budget id) (← required uint64 budget index)
    | "field" => some <| .holding <|
      record ["obj", "field"] fun budget slots => do
        let [obj, name] := slots | none
        return .field (← required expr budget obj) (← required text budget name)
    | "property" => some <| .holding <|
      record ["obj", "property"] fun budget slots => do
        let [obj, accessor] := slots | none
        return .property (← required expr budget obj) (← required propertyDecoder budget accessor)
    | "call" => some <| .holding <|
      record ["obj", "method", "args"] fun budget slots => do
        let [receiver, callee, args] := slots | none
        return .call (← optional (nullable expr) none budget receiver)
          (← required calleeDecoder budget callee) (← optional (list expr) [] budget args)
    | "index" => some <| .holding <|
      record ["array", "index"] fun budget slots => do
        let [array, position] := slots | none
        return .index (← required expr budget array) (← required expr budget position)
    | "unary" => some <| .holding <|
      record ["op", "operand"] fun budget slots => do
        let [op, operand] := slots | none
        return .unary (← required unaryOpDecoder budget op) (← required expr budget operand)
    | "binary" => some <| .holding <|
      record ["left", "op", "right"] fun budget slots => do
        let [left, op, right] := slots | none
        return .binary (← required expr budget left) (← required binaryOpDecoder budget op)
          (← required expr budget right)
    | "select" => some <| .holding <|
      record ["cond", "on_true", "on_false"] fun budget slots => do
        let [cond, onTrue, onFalse] := slots | none
        return .select (← required expr budget cond) (← required expr budget onTrue)
          (← required expr budget onFalse)
    | "interpolated" => some <| .holding <|
      record ["parts", "suffix"] fun budget slots => do
        let [parts, suffix] := slots | none
        return .interpolated (← required (list (partDecoder expr)) budget parts)
          (← optional text "" budget suffix)
    | "resource" => some (.holding (text.map .resource))
    | _ => none

def exprDecoder : Nat → Decoder Expr
  | 0 => fun _ _ => none
  | fuel + 1 =>
    record ["kind", "ty"] fun budget slots => do
      let [kind, ty] := slots | none
      let form ← required (exprFormDecoder (exprDecoder fuel)) budget kind
      return form (← required type budget ty)

def expression : Decoder Expr := exprDecoder (nestingLimit + 1)

def blockDecoder (stmt : Decoder Stmt) : Decoder Block :=
  record ["stmts"] fun budget slots => do
    let [stmts] := slots | none
    required (list stmt) budget stmts

def varDeclDecoder : Decoder VarDecl :=
  record ["name", "ty", "value"] fun budget slots => do
    let [name, ty, value] := slots | none
    return ⟨← required text budget name, ← required type budget ty,
      ← optional (nullable expression) none budget value⟩

def stmtDecoder : Nat → Decoder Stmt
  | 0 => fun _ _ => none
  | fuel + 1 =>
    let stmt := stmtDecoder fuel
    choice fun
      | "block" => some (.holding ((blockDecoder stmt).map .block))
      | "expr" => some (.holding (expression.map .eval))
      | "var" => some (.holding (varDeclDecoder.map .declare))
      | "assign" => some <| .holding <|
        record ["target", "op", "value"] fun budget slots => do
          let [target, op, value] := slots | none
          return .assign (← required expression budget target)
            (← required assignOpDecoder budget op) (← required expression budget value)
      | "if" => some <| .holding <|
        record ["cond", "then_branch", "else_branch"] fun budget slots => do
          let [cond, onTrue, onFalse] := slots | none
          return .branch (← required expression budget cond) (← required stmt budget onTrue)
            (← optional (nullable stmt) none budget onFalse)
      | "while" => some <| .holding <|
        record ["cond", "body"] fun budget slots => do
          let [cond, body] := slots | none
          return .whileLoop (← required expression budget cond) (← required stmt budget body)
      | "do_while" => some <| .holding <|
        record ["body", "cond"] fun budget slots => do
          let [body, cond] := slots | none
          return .doLoop (← required stmt budget body) (← required expression budget cond)
      | "for" => some <| .holding <|
        record ["init", "cond", "advance", "body"] fun budget slots => do
          let [start, cond, advance, body] := slots | none
          return .forLoop (← optional (nullable stmt) none budget start)
            (← optional (nullable expression) none budget cond)
            (← optional (nullable stmt) none budget advance) (← required stmt budget body)
      | "break" => some (.bare .breakLoop)
      | "continue" => some (.bare .continueLoop)
      | "return" => some (.holding ((nullable expression).map .returnValue))
      | "throw" => some (.holding (expression.map .throwError))
      | "native" => some (.holding (text.map .native))
      | _ => none

def block : Decoder Block := blockDecoder (stmtDecoder (nestingLimit + 1))

def enumValueDecoder : Decoder EnumValue :=
  record ["name", "doc"] fun budget slots => do
    let [name, doc] := slots | none
    return ⟨← required text budget name, ← optional (nullable docDecoder) none budget doc⟩

def enumDefDecoder : Decoder EnumDef :=
  record ["name", "visibility", "doc", "values"] fun budget slots => do
    let [name, visibility, doc, values] := slots | none
    return ⟨← required text budget name, ← optional visibilityDecoder .hidden budget visibility,
      ← optional (nullable docDecoder) none budget doc,
      ← required (list enumValueDecoder) budget values⟩

def fieldDefDecoder : Decoder FieldDef :=
  record ["name", "visibility", "doc", "ty", "value"] fun budget slots => do
    let [name, visibility, doc, ty, value] := slots | none
    return ⟨← required text budget name, ← optional visibilityDecoder .hidden budget visibility,
      ← optional (nullable docDecoder) none budget doc, ← required type budget ty,
      ← optional (nullable expression) none budget value⟩

def constDefDecoder : Decoder ConstDef :=
  record ["name", "visibility", "doc", "ty", "value", "global_name"] fun budget slots => do
    let [name, visibility, doc, ty, value, globalName] := slots | none
    return ⟨← required text budget name, ← optional visibilityDecoder .hidden budget visibility,
      ← optional (nullable docDecoder) none budget doc, ← required type budget ty,
      ← required (constValueDecoder (nestingLimit + 1)) budget value,
      ← optional (nullable text) none budget globalName⟩

def paramDecoder : Decoder Param :=
  record ["name", "ty", "doc"] fun budget slots => do
    let [name, ty, doc] := slots | none
    return ⟨← required text budget name, ← required type budget ty,
      ← optional (nullable docDecoder) none budget doc⟩

def methodDefDecoder : Decoder MethodDef :=
  record ["name", "visibility", "doc", "is_static", "params", "return_type", "body"]
    fun budget slots => do
      let [name, visibility, doc, isStatic, params, returnType, body] := slots | none
      return ⟨← required text budget name, ← optional visibilityDecoder .hidden budget visibility,
        ← optional (nullable docDecoder) none budget doc, ← optional truth false budget isStatic,
        ← optional (list paramDecoder) [] budget params, ← required type budget returnType,
        ← required block budget body⟩

def memberDecoder : Decoder Member :=
  choice fun
    | "field" => some (.holding (fieldDefDecoder.map .field))
    | "const" => some (.holding (constDefDecoder.map .const))
    | "method" => some (.holding (methodDefDecoder.map .method))
    | _ => none

def classDefDecoder : Decoder ClassDef :=
  record ["name", "visibility", "doc", "constructor", "members", "const_arrays"]
    fun budget slots => do
      let [name, visibility, doc, constructor?, members, constArrays] := slots | none
      return ⟨← required text budget name, ← optional visibilityDecoder .hidden budget visibility,
        ← optional (nullable docDecoder) none budget doc,
        ← optional (nullable block) none budget constructor?,
        ← optional (list memberDecoder) [] budget members,
        ← optional (list constDefDecoder) [] budget constArrays⟩

/-- Resources by name. Of two members with one name the later counts. -/
def resourcesDecoder : Decoder Resources
  | budget + 1, .object members => do
    let named ← namedMembers members
    let entries ← named.mapM fun (name, j) => do return (name, ← list uint8 budget j)
    return entries.foldl (fun resources (name, bytes) => resources.insert name bytes) .empty
  | _, _ => none

def programDecoder : Decoder Program :=
  record ["enums", "classes", "globals", "natives", "resources"] fun budget slots => do
    let [enums, classes, globals, natives, resources] := slots | none
    return ⟨← optional (list enumDefDecoder) [] budget enums,
      ← optional (list classDefDecoder) [] budget classes,
      ← required (list symbolIdDecoder) budget globals,
      ← optional (list text) [] budget natives,
      ← optional resourcesDecoder .empty budget resources⟩

/-- Why a text is not a usable program. -/
inductive FormError
  | malformed
  | dangling (id : SymbolId)
  deriving DecidableEq

/-- The program a JSON value stands for. -/
def ofJson? (j : Json) : Option Program := programDecoder nestingLimit j

/-- The program a JSON value stands for, if all its references point at declarations. -/
def check (j : Json) : Except FormError Program :=
  match ofJson? j with
  | none => .error .malformed
  | some p =>
    match p.findDangling with
    | some id => .error (.dangling id)
    | none => .ok p

/-- The program a text stands for, if all its references point at declarations. -/
def ofText (text : String) : Except FormError Program :=
  match Json.parse? text with
  | none => .error .malformed
  | some j => check j

end Emitter.Program
