import Emitter.Json.Printer
import Emitter.Program.FormName

/-!
# Writing programs as JSON

The record and choice forms of every part of a program, with all fields present and an absent
value as null. How a double is written is a parameter; `ofFloat` writes it as a number.
-/

namespace Emitter.Program

open Number
open Json (ofString)

/-- A choice whose case holds data. -/
def holding (name : String) (data : Json) : Json := .record [(name, data)]

def ofIndex (n : UInt64) : Json := .ofNat n.toNat

/-- A list of values. -/
def ofList {α : Type} (item : α → Json) (items : List α) : Json := .array (items.map item)

/-- A value, or null for none. -/
def ofOption {α : Type} (value : α → Json) : Option α → Json
  | none => .null
  | some a => value a

/-- A finite double as a number. -/
def ofFloat (x : Binary64) : Json := .number (.ofBinary64 x)

def SymbolId.toJson : SymbolId → Json
  | enumeration id => holding "enum" (ofIndex id.index)
  | classDef id => holding "class" (ofIndex id.index)

def Doc.toJson (doc : Doc) : Json :=
  .record [("summary", ofString doc.summary), ("details", ofList ofString doc.details)]

def Ty.toJson : Ty → Json
  | void => ofString "void"
  | bool => ofString "bool"
  | int kind => holding "int" (ofString kind.formName)
  | float kind => holding "float" (ofString kind.formName)
  | string => ofString "string"
  | null => ofString "null"
  | enumeration id => holding "enum" (ofIndex id.index)
  | array element storage length =>
    holding "array" <| .record [("element", element.toJson), ("storage", .bool storage),
      ("length", ofOption (fun n => .ofNat n.toNat) length)]
  | classStorage id => holding "class_storage" (ofIndex id.index)
  | classRef id => holding "class_ref" (ofIndex id.index)

section

variable (floatForm : Binary64 → Json)

def enumValueForm (id : EnumId) (index : UInt64) : Json :=
  holding "enum_value" <| .record [("enum_id", ofIndex id.index), ("index", ofIndex index)]

mutual

def ConstValue.toJson : ConstValue → Json
  | .int n => holding "int" (.ofInt n.toInt)
  | .float x => holding "float" (floatForm x)
  | .bool b => holding "bool" (.bool b)
  | .str s => holding "str" (ofString s)
  | .enumValue id index => enumValueForm id index
  | .array items => holding "array" (.array (constItemForms items))

def constItemForms : List ConstValue → List Json
  | [] => []
  | item :: rest => item.toJson :: constItemForms rest

end

def Literal.toJson : Literal → Json
  | .int n => holding "int" (.ofInt n.toInt)
  | .float x => holding "float" (floatForm x)
  | .bool b => holding "bool" (.bool b)
  | .str s => holding "str" (ofString s)
  | .null => ofString "null"

def Callee.toJson : Callee → Json
  | .builtin method => holding "builtin" (ofString method.formName)
  | .user owner name isStatic =>
    holding "user" <| .record [("class", ofIndex owner.index), ("name", ofString name),
      ("is_static", .bool isStatic)]

/-- An expression: the form of what it is, then its type. -/
def exprForm (kind : Json) (ty : Ty) : Json := .record [("kind", kind), ("ty", ty.toJson)]

mutual

def Expr.toJson : Expr → Json
  | .literal value ty => exprForm (holding "literal" (value.toJson floatForm)) ty
  | .var name ty => exprForm (holding "var" (ofString name)) ty
  | .this ty => exprForm (ofString "this") ty
  | .const owner name ty =>
    exprForm (holding "const" <|
      .record [("class", ofIndex owner.index), ("name", ofString name)]) ty
  | .enumValue id index ty => exprForm (enumValueForm id index) ty
  | .field obj name ty =>
    exprForm (holding "field" <| .record [("obj", obj.toJson), ("field", ofString name)]) ty
  | .property obj accessor ty =>
    exprForm (holding "property" <| .record [("obj", obj.toJson),
      ("property", ofString accessor.formName)]) ty
  | .call receiver callee args ty =>
    exprForm (holding "call" <| .record [("obj", receiverForm receiver),
      ("method", callee.toJson), ("args", .array (argForms args))]) ty
  | .index array position ty =>
    exprForm (holding "index" <| .record [("array", array.toJson), ("index", position.toJson)]) ty
  | .unary op operand ty =>
    exprForm (holding "unary" <| .record [("op", ofString op.formName),
      ("operand", operand.toJson)]) ty
  | .binary left op right ty =>
    exprForm (holding "binary" <| .record [("left", left.toJson), ("op", ofString op.formName),
      ("right", right.toJson)]) ty
  | .select cond onTrue onFalse ty =>
    exprForm (holding "select" <| .record [("cond", cond.toJson), ("on_true", onTrue.toJson),
      ("on_false", onFalse.toJson)]) ty
  | .interpolated parts suffix ty =>
    exprForm (holding "interpolated" <| .record [("parts", .array (partForms parts)),
      ("suffix", ofString suffix)]) ty
  | .resource name ty => exprForm (holding "resource" (ofString name)) ty

def receiverForm : Option Expr → Json
  | none => .null
  | some e => e.toJson

def argForms : List Expr → List Json
  | [] => []
  | e :: rest => e.toJson :: argForms rest

def partForms : List Part → List Json
  | [] => []
  | .mk hole arg :: rest =>
    .record [("prefix", ofString hole.before), ("arg", arg.toJson),
      ("width", ofOption (fun n => .ofInt n.toInt) hole.width),
      ("format", ofOption (fun c => ofString (String.singleton c)) hole.format),
      ("precision", ofOption (fun n => .ofNat n.toNat) hole.precision)] :: partForms rest

end

def VarDecl.toJson (decl : VarDecl) : Json :=
  .record [("name", ofString decl.name), ("ty", decl.ty.toJson),
    ("value", receiverForm floatForm decl.value)]

mutual

def Stmt.toJson : Stmt → Json
  | .block stmts => holding "block" (.record [("stmts", .array (stmtForms stmts))])
  | .eval e => holding "expr" (e.toJson floatForm)
  | .declare decl => holding "var" (decl.toJson floatForm)
  | .assign target op value =>
    holding "assign" <| .record [("target", target.toJson floatForm), ("op", ofString op.formName),
      ("value", value.toJson floatForm)]
  | .branch cond onTrue onFalse =>
    holding "if" <| .record [("cond", cond.toJson floatForm), ("then_branch", onTrue.toJson),
      ("else_branch", clauseForm onFalse)]
  | .whileLoop cond body =>
    holding "while" <| .record [("cond", cond.toJson floatForm), ("body", body.toJson)]
  | .doLoop body cond =>
    holding "do_while" <| .record [("body", body.toJson), ("cond", cond.toJson floatForm)]
  | .forLoop start cond advance body =>
    holding "for" <| .record [("init", clauseForm start), ("cond", receiverForm floatForm cond),
      ("advance", clauseForm advance), ("body", body.toJson)]
  | .breakLoop => ofString "break"
  | .continueLoop => ofString "continue"
  | .returnValue value => holding "return" (receiverForm floatForm value)
  | .throwError message => holding "throw" (message.toJson floatForm)
  | .native text => holding "native" (ofString text)

def clauseForm : Option Stmt → Json
  | none => .null
  | some s => s.toJson

def stmtForms : List Stmt → List Json
  | [] => []
  | s :: rest => s.toJson :: stmtForms rest

end

def blockForm (stmts : Block) : Json := .record [("stmts", .array (stmtForms floatForm stmts))]

def EnumValue.toJson (value : EnumValue) : Json :=
  .record [("name", ofString value.name), ("doc", ofOption Doc.toJson value.doc)]

def EnumDef.toJson (e : EnumDef) : Json :=
  .record [("name", ofString e.name), ("visibility", ofString e.visibility.formName),
    ("doc", ofOption Doc.toJson e.doc), ("values", ofList EnumValue.toJson e.values)]

def FieldDef.toJson (f : FieldDef) : Json :=
  .record [("name", ofString f.name), ("visibility", ofString f.visibility.formName),
    ("doc", ofOption Doc.toJson f.doc), ("ty", f.ty.toJson),
    ("value", receiverForm floatForm f.value)]

def ConstDef.toJson (k : ConstDef) : Json :=
  .record [("name", ofString k.name), ("visibility", ofString k.visibility.formName),
    ("doc", ofOption Doc.toJson k.doc), ("ty", k.ty.toJson), ("value", k.value.toJson floatForm),
    ("global_name", ofOption ofString k.globalName)]

def Param.toJson (param : Param) : Json :=
  .record [("name", ofString param.name), ("ty", param.ty.toJson),
    ("doc", ofOption Doc.toJson param.doc)]

def MethodDef.toJson (m : MethodDef) : Json :=
  .record [("name", ofString m.name), ("visibility", ofString m.visibility.formName),
    ("doc", ofOption Doc.toJson m.doc), ("is_static", .bool m.isStatic),
    ("params", ofList Param.toJson m.params), ("return_type", m.returnType.toJson),
    ("body", blockForm floatForm m.body)]

def Member.toJson : Member → Json
  | .field f => holding "field" (f.toJson floatForm)
  | .const k => holding "const" (k.toJson floatForm)
  | .method m => holding "method" (m.toJson floatForm)

def ClassDef.toJson (c : ClassDef) : Json :=
  .record [("name", ofString c.name), ("visibility", ofString c.visibility.formName),
    ("doc", ofOption Doc.toJson c.doc),
    ("constructor", ofOption (blockForm floatForm) c.constructor?),
    ("members", ofList (Member.toJson floatForm) c.members),
    ("const_arrays", ofList (ConstDef.toJson floatForm) c.constArrays)]

end

def Resources.toJson (resources : Resources) : Json :=
  .record (resources.entries.map fun (name, bytes) =>
    (name, ofList (fun b => .ofNat b.toNat) bytes))

/-- The JSON value of a program, with doubles written by `floatForm`. -/
def toJson (floatForm : Binary64 → Json) (p : Program) : Json :=
  .record [("enums", ofList EnumDef.toJson p.enums),
    ("classes", ofList (ClassDef.toJson floatForm) p.classes),
    ("globals", ofList SymbolId.toJson p.globals), ("natives", ofList ofString p.natives),
    ("resources", p.resources.toJson)]

/-- The text of a program, which reads back as it. -/
def toText (p : Program) : String := (p.toJson ofFloat).render

end Emitter.Program
