import Emitter.Number.Text
import Emitter.Program.Lookup
import Emitter.Target.Basic

/-!
# Why a run stops

A run is refused when the program asks for something the target cannot express. The two other
faults, a reference to no declaration and an unbalanced layout, never happen to a program that
loaded; they are kept apart so that this can be said.
-/

namespace Emitter

open Number Program

/-- Something that a target has no form for. -/
inductive Feature
  | topLevelNatives
  | formattedInterpolation
  | interpolation (dialect : Dialect)
  | floatLiteral (value : Binary64)
  | resource (name : String)
  | missingResource (name : String)
  | forClause
  | constructedInForClause (name : String)
  | missingEnumValue (enumName : String) (index : Nat)
  | scalarTable (name : String)
  | dynamicArrayStorage
  | printArguments
  | formatLetter (letter : Char)
  | exceptions
  | clearOfUnsizedArray
  | argumentCount (method : BuiltinMethod) (count : Nat)
  | receiver (method : BuiltinMethod)
  | divisionOfEffectfulTarget
  deriving DecidableEq

def Feature.message : Feature → String
  | topLevelNatives => "top-level native blocks have no place in per-class files"
  | formattedInterpolation => "formatted interpolation arguments are not supported"
  | interpolation .standard =>
    "interpolated strings are only supported as Console.Write arguments"
  | interpolation .openCL => "interpolated strings are not supported in OpenCL C"
  | floatLiteral value => "float literal " ++ value.text
  | resource name => "resource `" ++ name ++ "` cannot be embedded"
  | missingResource name => "resource `" ++ name ++ "` does not exist"
  | forClause => "only expressions, locals and assignments may appear in a for clause"
  | constructedInForClause name =>
    "`" ++ name ++ "` needs construction and cannot be declared in a for clause"
  | missingEnumValue enumName index =>
    "enum `" ++ enumName ++ "` has no value #" ++ toString index
  | scalarTable name => "constant table `" ++ name ++ "` is not an array"
  | dynamicArrayStorage => "dynamic array storage"
  | printArguments => "Console.Write takes one argument"
  | formatLetter letter => "format specifier `" ++ letter.toString ++ "` in printf"
  | exceptions => "exceptions are not supported"
  | clearOfUnsizedArray => "only fixed-size arrays can be cleared"
  | argumentCount method count =>
    "`" ++ method.name ++ "` called with " ++ toString count ++ " argument(s)"
  | receiver method => "`" ++ method.name ++ "` needs a receiver"
  | divisionOfEffectfulTarget => "integer `/=` on a target with side effects"

/-- Why a target refuses a program. A type is given in the spelling of the source language. -/
inductive Refusal
  | unmappedType (target : Target) (type : String)
  | unmappedBuiltin (target : Target) (method : BuiltinMethod)
  | unsupported (target : Target) (feature : Feature)
  | unknownTarget (name : String)
  deriving DecidableEq

def Refusal.message : Refusal → String
  | unmappedType target type =>
    target.name ++ ": type `" ++ type ++ "` has no mapping on this target"
  | unmappedBuiltin target method =>
    target.name ++ ": built-in `" ++ method.name ++ "` is not supported on this target"
  | unsupported target feature => target.name ++ ": " ++ feature.message
  | unknownTarget name =>
    "unknown target `" ++ name ++ "` (expected one of: " ++
      ", ".intercalate (Target.all.map Target.name) ++ ")"

inductive Fault
  | refused (refusal : Refusal)
  | dangling (id : SymbolId)
  | unbalanced
  deriving DecidableEq

def Fault.message : Fault → String
  | refused refusal => refusal.message
  | dangling id => "reference to no declaration: " ++ id.description
  | unbalanced => "unbalanced layout"

abbrev Result := Except Fault

/-- The result of a look-up as a step of a run. -/
def lookedUp {α : Type} : Except SymbolId α → Result α
  | .ok a => .ok a
  | .error id => .error (.dangling id)

end Emitter
