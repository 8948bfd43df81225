import Emitter.Text.Naming

/-!
# Targets

The languages that programs are printed in: ActionScript, and the C family with its two dialects,
standard C and OpenCL C.
-/

namespace Emitter

open Text

inductive Dialect
  | standard
  | openCL
  deriving DecidableEq, Repr

inductive Target
  | actionScript
  | cFamily (dialect : Dialect)
  deriving DecidableEq, Repr

namespace Target

/-- The name of the target on the command line and in messages. -/
def name : Target → String
  | actionScript => "as"
  | cFamily .standard => "c"
  | cFamily .openCL => "cl"

/-- The extension of printed files, which is also the target's name. -/
def extension (t : Target) : String := t.name

def all : List Target := [actionScript, cFamily .standard, cFamily .openCL]

def ofName? (name : String) : Option Target := all.find? (·.name = name)

/-- Words that a local name must not be. -/
def keywords : Target → Keywords
  | actionScript => ⟨["as", "break", "case", "catch", "class", "const", "continue", "default",
      "delete", "do", "dynamic", "each", "else", "extends", "false", "final", "finally", "for",
      "function", "get", "if", "implements", "import", "in", "include", "instanceof", "interface",
      "internal", "is", "namespace", "native", "new", "null", "override", "package", "private",
      "protected", "public", "return", "set", "static", "super", "switch", "this", "throw", "to",
      "true", "try", "typeof", "use", "var", "void", "while", "with"]⟩
  | cFamily .standard => ⟨c99⟩
  | cFamily .openCL => ⟨c99 ++ ["constant", "global", "local", "private", "kernel", "__constant",
      "__global", "__local", "__private", "__kernel", "uchar", "ushort", "uint", "ulong", "half",
      "size_t"]⟩
where
  c99 : List String := ["auto", "bool", "break", "case", "char", "const", "continue", "default",
    "do", "double", "else", "enum", "extern", "false", "float", "for", "goto", "if", "inline",
    "int", "long", "register", "restrict", "return", "self", "short", "signed", "sizeof", "static",
    "struct", "switch", "true", "typedef", "union", "unsigned", "void", "volatile", "while",
    "_Bool", "_Complex", "_Imaginary"]

/-- The spelling of fields, locals, parameters and ActionScript methods. -/
def localName (t : Target) (name : String) : String := t.keywords.escape (camelCase name)

end Target

end Emitter
