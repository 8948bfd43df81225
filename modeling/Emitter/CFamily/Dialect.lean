import Emitter.Layout.Lexeme
import Emitter.Program.Types
import Emitter.Target.Basic

/-!
# The two dialects of C

What standard C and OpenCL C spell differently. OpenCL C has no headers, its read-only data lives
in the `constant` address space, and its integer types have fixed widths by themselves.
-/

namespace Emitter.Dialect

open Layout Program

/-- Standard C takes the types whose width matters from a header. -/
def intType : Dialect → IntKind → Lexeme
  | .standard, .sbyte => .supplied "int8_t" (.header .stdint)
  | .standard, .byte => .supplied "uint8_t" (.header .stdint)
  | .standard, .short => .supplied "int16_t" (.header .stdint)
  | .standard, .ushort => .supplied "uint16_t" (.header .stdint)
  | .standard, .int => .word "int"
  | .standard, .long => .supplied "int64_t" (.header .stdint)
  | .openCL, .sbyte => .word "char"
  | .openCL, .byte => .word "uchar"
  | .openCL, .short => .word "short"
  | .openCL, .ushort => .word "ushort"
  | .openCL, .int => .word "int"
  | .openCL, .long => .word "long"

/-- The qualifier of data that is never written. -/
def readOnly : Dialect → Lexeme
  | .standard => .word "const"
  | .openCL => .word "constant"

def stringType (d : Dialect) : Code := [d.readOnly, .gap, .word "char", .gap, .symbol "*"]

/-- What stands before a table at file scope. -/
def tableStorage : Dialect → Code
  | .standard => [.word "static", .gap]
  | .openCL => []

/-- The `printf` conversion of a 64-bit integer. -/
def longConversion : Dialect → String
  | .standard => "lld"
  | .openCL => "ld"

/-- The type that a 64-bit integer is cast to before it is printed, if it has to be. -/
def longCast : Dialect → Option Code
  | .standard => some [.word "long", .gap, .word "long"]
  | .openCL => none

end Emitter.Dialect
