import Emitter.Target.Operand
import Emitter.Text.Naming

/-!
# Literals and constant values

A number is printed without its sign after a sign symbol. The C family has no literals for
infinities and NaN, and takes its truth values and null from headers.
-/

namespace Emitter

open Layout Number Program Text

namespace Context

/-- A truth value. -/
def truth (cx : Context) (value : Bool) : Code :=
  let name := if value then "true" else "false"
  match cx.target with
  | .actionScript => [.word name]
  | .cFamily _ => [.supplied name (.header .stdbool)]

/-- The null reference. -/
def null (cx : Context) : Code :=
  match cx.target with
  | .actionScript => [.word "null"]
  | .cFamily _ => [.supplied "NULL" (.header .stddef)]

/-- A finite number: its sign, if it has one, then its magnitude. -/
def finiteFloat (x : Binary64) : Code :=
  if x.isNegative then [.symbol "-", .number x.magnitudeText] else [.number x.magnitudeText]

def float (cx : Context) (x : Binary64) : Result Code :=
  match cx.target with
  | .actionScript =>
    if x.isNaN then .ok [.word "NaN"]
    else if x.isInfinite then
      .ok (if x.isNegative then [.symbol "-", .word "Infinity"] else [.word "Infinity"])
    else .ok (finiteFloat x)
  | .cFamily _ => if x.isFinite then .ok (finiteFloat x) else cx.unsupported (.floatLiteral x)

def literal (cx : Context) : Literal → Result Code
  | .int n => .ok (.integer n.toInt)
  | .float x => cx.float x
  | .bool b => .ok (cx.truth b)
  | .str s => .ok [.quoted s]
  | .null => .ok cx.null

/-- The constant that stands for a value of an enumeration. -/
def enumValue (cx : Context) (id : EnumId) (index : UInt64) : Result Code := do
  let e ← cx.enumOf id
  match e.values[index.toNat]? with
  | none => cx.unsupported (.missingEnumValue e.name index.toNat)
  | some value =>
    match cx.target with
    | .actionScript =>
      return [.word e.name, .symbol ".", .word (upperSnakeCase value.name)]
    | .cFamily _ => return [.word (e.name ++ "_" ++ upperSnakeCase value.name)]

/-- The items of a constant table between the target's brackets. -/
def table (cx : Context) (items : Code) : Code :=
  match cx.target with
  | .actionScript => [.symbol "[", .gap] ++ items ++ [.gap, .symbol "]"]
  | .cFamily _ => [.symbol "\x7b", .gap] ++ items ++ [.gap, .symbol "\x7d"]

mutual

def constValue (cx : Context) : ConstValue → Result Code
  | .int n => .ok (.integer n.toInt)
  | .float x => cx.float x
  | .bool b => .ok (cx.truth b)
  | .str s => .ok [.quoted s]
  | .enumValue id index => cx.enumValue id index
  | .array items => do return cx.table (.commaSeparated (← constItems cx items))

def constItems (cx : Context) : List ConstValue → Result (List Code)
  | [] => .ok []
  | item :: rest => do
    let first ← constValue cx item
    return first :: (← constItems cx rest)

end

end Context

end Emitter
