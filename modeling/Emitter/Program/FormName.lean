import Emitter.Program.Basic

/-!
# Names in the JSON form

The name each case without data has in the JSON form of programs, and all cases of each kind.
-/

namespace Emitter.Program

namespace Visibility

def formName : Visibility → String
  | dead => "dead"
  | hidden => "private"
  | internal => "internal"
  | exported => "public"

def all : List Visibility := [dead, hidden, internal, exported]

end Visibility

namespace IntKind

def formName : IntKind → String
  | sbyte => "s_byte"
  | byte => "byte"
  | short => "short"
  | ushort => "u_short"
  | int => "int"
  | long => "long"

def all : List IntKind := [sbyte, byte, short, ushort, int, long]

end IntKind

namespace FloatKind

def formName : FloatKind → String
  | float => "float"
  | double => "double"

def all : List FloatKind := [float, double]

end FloatKind

namespace UnaryOp

def formName : UnaryOp → String
  | neg => "neg"
  | not => "not"
  | bitNot => "bit_not"
  | preInc => "pre_inc"
  | preDec => "pre_dec"
  | postInc => "post_inc"
  | postDec => "post_dec"

def all : List UnaryOp := [neg, not, bitNot, preInc, preDec, postInc, postDec]

end UnaryOp

namespace BinaryOp

def formName : BinaryOp → String
  | add => "add"
  | sub => "sub"
  | mul => "mul"
  | div => "div"
  | mod => "mod"
  | shl => "shl"
  | shr => "shr"
  | less => "less"
  | lessEq => "less_eq"
  | greater => "greater"
  | greaterEq => "greater_eq"
  | eq => "eq"
  | notEq => "not_eq"
  | bitAnd => "bit_and"
  | bitOr => "bit_or"
  | bitXor => "bit_xor"
  | and => "and"
  | or => "or"

def all : List BinaryOp := [add, sub, mul, div, mod, shl, shr, less, lessEq, greater, greaterEq,
  eq, notEq, bitAnd, bitOr, bitXor, and, or]

end BinaryOp

namespace AssignOp

def formName : AssignOp → String
  | assign => "assign"
  | add => "add"
  | sub => "sub"
  | mul => "mul"
  | div => "div"
  | mod => "mod"
  | shl => "shl"
  | shr => "shr"
  | bitAnd => "bit_and"
  | bitOr => "bit_or"
  | bitXor => "bit_xor"

def all : List AssignOp := [assign, add, sub, mul, div, mod, shl, shr, bitAnd, bitOr, bitXor]

end AssignOp

namespace BuiltinProperty

def formName : BuiltinProperty → String
  | signExtendByte => "sign_extend_byte"
  | lowByte => "low_byte"
  | stringLength => "string_length"

def all : List BuiltinProperty := [signExtendByte, lowByte, stringLength]

end BuiltinProperty

namespace BuiltinMethod

def formName : BuiltinMethod → String
  | mulDiv => "mul_div"
  | charAt => "char_at"
  | substring => "substring"
  | arrayCopyTo => "array_copy_to"
  | arrayToString => "array_to_string"
  | arrayClear => "array_clear"
  | consoleWrite => "console_write"
  | consoleWriteLine => "console_write_line"
  | mathAbs => "math_abs"
  | mathSqrt => "math_sqrt"

def all : List BuiltinMethod := [mulDiv, charAt, substring, arrayCopyTo, arrayToString, arrayClear,
  consoleWrite, consoleWriteLine, mathAbs, mathSqrt]

end BuiltinMethod

end Emitter.Program
