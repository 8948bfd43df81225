import Emitter.Program.Types

/-!
# Built-in operations

The accessors and methods that the source language provides itself. Each target lowers them in
its own way or refuses them.
-/

namespace Emitter.Program

/-- Accessors without arguments. `signExtendByte` reads the low eight bits as a signed number and
`lowByte` as an unsigned one. -/
inductive BuiltinProperty
  | signExtendByte
  | lowByte
  | stringLength
  deriving DecidableEq, Repr

namespace BuiltinProperty

/-- The name in the source language. -/
def name : BuiltinProperty → String
  | signExtendByte => "int.SByte"
  | lowByte => "int.LowByte"
  | stringLength => "string.Length"

def resultType (_ : BuiltinProperty) : Ty := .int .int

end BuiltinProperty

/-- Methods. `mulDiv` multiplies and divides without overflow in between, `arrayCopyTo` takes a
source position, a destination, a position there and a length, and `arrayToString` decodes a range
of bytes. -/
inductive BuiltinMethod
  | mulDiv
  | charAt
  | substring
  | arrayCopyTo
  | arrayToString
  | arrayClear
  | consoleWrite
  | consoleWriteLine
  | mathAbs
  | mathSqrt
  deriving DecidableEq, Repr

namespace BuiltinMethod

/-- The name in the source language. -/
def name : BuiltinMethod → String
  | mulDiv => "int.MulDiv"
  | charAt => "string.CharAt"
  | substring => "string.Substring"
  | arrayCopyTo => "array.CopyTo"
  | arrayToString => "array.ToString"
  | arrayClear => "array.Clear"
  | consoleWrite => "Console.Write"
  | consoleWriteLine => "Console.WriteLine"
  | mathAbs => "Math.Abs"
  | mathSqrt => "Math.Sqrt"

/-- Calling the method twice could be observed. -/
def hasSideEffect : BuiltinMethod → Bool
  | arrayCopyTo | arrayClear | consoleWrite | consoleWriteLine => true
  | _ => false

/-- The type of a call, given the type of its first argument. -/
def resultType (firstArg : Option Ty) : BuiltinMethod → Ty
  | mulDiv | charAt => .int .int
  | substring | arrayToString => .string
  | arrayCopyTo | arrayClear | consoleWrite | consoleWriteLine => .void
  | mathAbs => firstArg.getD (.int .int)
  | mathSqrt => .float .double

end BuiltinMethod

end Emitter.Program
