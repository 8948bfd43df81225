import Emitter.Program.Basic

/-!
# Declarations by reference

Looking a declaration up by its position. The look-ups that printing relies on answer with the
reference itself where it points at nothing; the names that diagnostics show are always there.
-/

namespace Emitter.Program

/-- A reference in the wording of diagnostics. -/
def SymbolId.description : SymbolId → String
  | enumeration id => "enum #" ++ toString id.index.toNat
  | classDef id => "class #" ++ toString id.index.toNat

/-- The enumeration a reference points at. -/
def enumOf (p : Program) (id : EnumId) : Except SymbolId EnumDef :=
  match p.enums[id.index.toNat]? with
  | some e => .ok e
  | none => .error (.enumeration id)

/-- The class a reference points at. -/
def classOf (p : Program) (id : ClassId) : Except SymbolId ClassDef :=
  match p.classes[id.index.toNat]? with
  | some c => .ok c
  | none => .error (.classDef id)

def enumName (p : Program) (id : EnumId) : String :=
  (p.enums[id.index.toNat]?.map (·.name)).getD "<unknown enum>"

def className (p : Program) (id : ClassId) : String :=
  (p.classes[id.index.toNat]?.map (·.name)).getD "<unknown class>"

/-- The reference points at a declaration. -/
def declares (p : Program) : SymbolId → Bool
  | .enumeration id => decide (id.index.toNat < p.enums.length)
  | .classDef id => decide (id.index.toNat < p.classes.length)

/-- The references to classes among the top-level symbols, in order. -/
def globalClassIds (p : Program) : List ClassId :=
  p.globals.filterMap fun
    | .classDef id => some id
    | .enumeration _ => none

/-- The references to enumerations among the top-level symbols, in order. -/
def globalEnumIds (p : Program) : List EnumId :=
  p.globals.filterMap fun
    | .enumeration id => some id
    | .classDef _ => none

/-- The classes of the top-level symbols, in order. -/
def globalClasses (p : Program) : Except SymbolId (List (ClassId × ClassDef)) :=
  p.globalClassIds.mapM fun id => do return (id, ← p.classOf id)

/-- The enumerations of the top-level symbols, in order. -/
def globalEnums (p : Program) : Except SymbolId (List (EnumId × EnumDef)) :=
  p.globalEnumIds.mapM fun id => do return (id, ← p.enumOf id)

def IntKind.text : IntKind → String
  | sbyte => "sbyte"
  | byte => "byte"
  | short => "short"
  | ushort => "ushort"
  | int => "int"
  | long => "long"

def FloatKind.text : FloatKind → String
  | float => "float"
  | double => "double"

/-- A type in the spelling of the source language. -/
def describe (p : Program) : Ty → String
  | .void => "void"
  | .bool => "bool"
  | .int kind => kind.text
  | .float kind => kind.text
  | .string => "string"
  | .null => "null"
  | .enumeration id => p.enumName id
  | .array element true (some length) => p.describe element ++ s!"[{length.toNat}]"
  | .array element true none => p.describe element ++ "[]()"
  | .array element false _ => p.describe element ++ "[]"
  | .classStorage id => p.className id ++ "()"
  | .classRef id => p.className id

end Emitter.Program
