import Emitter.CFamily.Dialect
import Emitter.Target.Operand

/-!
# Printing at run time

`Console.Write` and `Console.WriteLine` become one `printf` whose format holds the texts, with each
percent sign doubled, and one conversion for each value.
-/

namespace Emitter.CFamily

open Layout Program

/-- A conversion of a `printf` format. -/
structure Conversion where
  width : Option Int32
  precision : Option UInt32
  letters : String
  deriving DecidableEq

def Conversion.text (c : Conversion) : String :=
  "%" ++ (c.width.elim "" fun n => toString n.toInt) ++
    (c.precision.elim "" fun n => "." ++ toString n.toNat) ++ c.letters

/-- A text as it stands in a format. -/
def formatText (text : String) : String :=
  String.ofList (text.toList.flatMap fun c => if c = '%' then ['%', '%'] else [c])

/-- The letters of the conversion for a value, by its hole's format letter if it has one, else by
its type. -/
def conversionLetters (cx : Context) (d : Dialect) (format : Option Char) (ty : Ty) :
    Result String :=
  match format with
  | some c =>
    if c ∈ ['x', 'X', 'e', 'E', 'g', 'G'] then .ok c.toString
    else if c = 'f' ∨ c = 'F' then .ok "f"
    else if c = 'd' ∨ c = 'D' then .ok "d"
    else cx.unsupported (.formatLetter c)
  | none =>
    match ty with
    | .int .long => .ok d.longConversion
    | .int _ | .bool | .enumeration _ => .ok "d"
    | .float _ => .ok "g"
    | .string => .ok "s"
    | other => cx.unmappedType other

def conversion (cx : Context) (d : Dialect) (hole : Hole) (ty : Ty) : Result Conversion := do
  return ⟨hole.width, hole.precision, ← conversionLetters cx d hole.format ty⟩

/-- The hole of a value that is printed alone. -/
def plainHole : Hole := ⟨"", none, none, none⟩

/-- The texts and conversions of interpolated holes. -/
def holeFormats (cx : Context) (d : Dialect) (holes : List (Hole × Operand)) : Result String := do
  let formats ← holes.mapM fun (hole, arg) => do
    return formatText hole.before ++ (← conversion cx d hole arg.expr.ty).text
  return String.join formats

/-- A value as an argument of `printf`. -/
def printedValue (d : Dialect) (value : Operand) : Result Code := do
  match d.longCast with
  | some cast =>
    if value.expr.ty = .int .long then
      return Code.parenthesized cast ++ .gap :: (← value.atLeast .prefixed)
    else value.atLeast .argument
  | none => value.atLeast .argument

def printfCall (d : Dialect) (format : String) (values : List Operand) : Result Code := do
  let rest ← values.mapM (printedValue d)
  return .supplied "printf" (.header .stdio) ::
    Code.parenthesized (Code.commaSeparated ([.quoted format] :: rest))

/-- What is printed: the holes and end of an interpolated string, or a single value. -/
inductive Shown
  | interpolated (holes : List (Hole × Operand)) (suffix : String)
  | value (value : Operand)

/-- Prints the arguments and then `lineEnd`. -/
def print (cx : Context) (d : Dialect) (lineEnd : String) : List Shown → Result Code
  | [] => printfCall d lineEnd []
  | [.interpolated holes suffix] => do
    let formats ← holeFormats cx d holes
    printfCall d (formats ++ formatText suffix ++ lineEnd) (holes.map Prod.snd)
  | [.value arg] =>
    match arg.expr with
    | .literal (.str text) _ => printfCall d (formatText text ++ lineEnd) []
    | e => do
      let format ← conversion cx d plainHole e.ty
      printfCall d (format.text ++ lineEnd) [arg]
  | _ => cx.unsupported .printArguments

end Emitter.CFamily
