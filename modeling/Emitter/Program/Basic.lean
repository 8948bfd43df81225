import Emitter.Program.Stmt
import Emitter.Program.Resources

/-!
# Programs

A program is a list of enumerations and a list of classes, the order of its top-level symbols,
texts of target code, and named binary resources.
-/

namespace Emitter.Program

open Number

/-- How far a symbol can be seen. A `dead` symbol is never referred to and is treated as one that
is seen in its own class only, a `hidden` one. -/
inductive Visibility
  | dead
  | hidden
  | internal
  | exported
  deriving DecidableEq, Repr

/-- The symbol is seen in its own class only. -/
def Visibility.isHidden : Visibility → Bool
  | dead | hidden => true
  | internal | exported => false

/-- Documentation of a symbol. -/
structure Doc where
  summary : String
  details : List String
  deriving DecidableEq

/-- The value of a constant. -/
inductive ConstValue
  | int (value : Int64)
  | float (value : Binary64)
  | bool (value : Bool)
  | str (value : String)
  | enumValue (id : EnumId) (index : UInt64)
  | array (items : List ConstValue)

/-- A number strictly below zero. -/
def ConstValue.isBelowZero : ConstValue → Bool
  | int n => n < 0
  | float x => x.isBelowZero
  | _ => false

structure EnumValue where
  name : String
  doc : Option Doc
  deriving DecidableEq

structure EnumDef where
  name : String
  visibility : Visibility
  doc : Option Doc
  values : List EnumValue
  deriving DecidableEq

/-- A field and its explicit initializer, if it has one. -/
structure FieldDef where
  name : String
  visibility : Visibility
  doc : Option Doc
  ty : Ty
  value : Option Expr

/-- A constant. One that was lifted out of a method has a global name of its own. -/
structure ConstDef where
  name : String
  visibility : Visibility
  doc : Option Doc
  ty : Ty
  value : ConstValue
  globalName : Option String

/-- The name the constant is printed under, before the target's spelling. -/
def ConstDef.emittedName (const : ConstDef) : String := const.globalName.getD const.name

structure Param where
  name : String
  ty : Ty
  doc : Option Doc

structure MethodDef where
  name : String
  visibility : Visibility
  doc : Option Doc
  isStatic : Bool
  params : List Param
  returnType : Ty
  body : Block

inductive Member
  | field (field : FieldDef)
  | const (const : ConstDef)
  | method (method : MethodDef)

/-- A class: its members in declaration order and its constant tables. The constructor's
statements run after the initializers of the fields. -/
structure ClassDef where
  name : String
  visibility : Visibility
  doc : Option Doc
  constructor? : Option Block
  members : List Member
  constArrays : List ConstDef

namespace ClassDef

def fields (c : ClassDef) : List FieldDef :=
  c.members.filterMap fun
    | .field f => some f
    | _ => none

def consts (c : ClassDef) : List ConstDef :=
  c.members.filterMap fun
    | .const k => some k
    | _ => none

def methods (c : ClassDef) : List MethodDef :=
  c.members.filterMap fun
    | .method m => some m
    | _ => none

/-- The first constant or constant table with this name or global name. -/
def findConst (c : ClassDef) (name : String) : Option ConstDef :=
  (c.consts ++ c.constArrays).find? fun k => k.name = name || k.globalName = some name

/-- A class of static methods and constants only, which has no instances. -/
def isStatic (c : ClassDef) : Bool :=
  c.constructor?.isNone && c.fields.isEmpty && c.methods.all (·.isStatic)

end ClassDef

/-- A reference to an enumeration or a class. -/
inductive SymbolId
  | enumeration (id : EnumId)
  | classDef (id : ClassId)
  deriving DecidableEq, Repr

end Emitter.Program

namespace Emitter

open Program

/-- A whole program. `globals` are its top-level symbols in declaration order. -/
structure Program where
  enums : List EnumDef
  classes : List ClassDef
  globals : List SymbolId
  natives : List String
  resources : Resources

/-- A program without any declaration. -/
def Program.empty : Program := ⟨[], [], [], [], .empty⟩

end Emitter
