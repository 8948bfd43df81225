import Emitter.Text.Casing

/-!
# Identifier conventions

Source names are written with capitals, as `ReadByte`. Members and locals are printed as
`readByte`, constants and enumeration values as `READ_BYTE`, and a name that collides with a
reserved word of the target gets an underscore at its end.
-/

namespace Emitter.Text

/-- `ReadByte` as `readByte`: only the first character changes. -/
def camelCase (name : String) : String :=
  match name.toList with
  | [] => ""
  | c :: rest => String.ofList (lowercase c ++ rest)

/-- An underscore belongs between `before` and the capital `c` that `after` follows. -/
def breaksBefore (before c : Char) (after : Option Char) : Bool :=
  isUppercase c &&
    (isLowercase before || before.isDigit || (isUppercase before && after.any isLowercase))

/-- The characters after `before` in upper case, with the underscores between words. -/
def upperSnakeTail : Char → List Char → List Char
  | _, [] => []
  | before, c :: rest =>
    (if breaksBefore before c rest.head? then ['_'] else []) ++ uppercase c ++
      upperSnakeTail c rest

/-- `MaxLength` as `MAX_LENGTH` and `HTTPStatus` as `HTTP_STATUS`. -/
def upperSnakeCase (name : String) : String :=
  match name.toList with
  | [] => ""
  | c :: rest => String.ofList (uppercase c ++ upperSnakeTail c rest)

/-- The reserved words of a target. -/
structure Keywords where
  words : List String

/-- The name, with an underscore at its end if it is a reserved word. -/
def Keywords.escape (keywords : Keywords) (name : String) : String :=
  if name ∈ keywords.words then name ++ "_" else name

end Emitter.Text
