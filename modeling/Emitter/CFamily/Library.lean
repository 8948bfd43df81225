import Emitter.Target.Emit

/-!
# Headers and helpers of printed C

Standard C includes the headers whose names the code uses. OpenCL C has none, and gets the two
string functions that the code calls printed in front of it.
-/

namespace Emitter.CFamily

open Layout

def streqText : String :=
  "\n".intercalate [
    "static bool streq(constant char *str1, constant char *str2)",
    "\x7b",
    "\tfor (size_t i = 0; str1[i] == str2[i]; i++) \x7b",
    "\t\tif (str1[i] == '\\0')",
    "\t\t\treturn true;",
    "\t\x7d",
    "\treturn false;",
    "\x7d"]

def strlenText : String :=
  "\n".intercalate [
    "static int strlen(constant char *str)",
    "\x7b",
    "\tint len = 0;",
    "\twhile (str[len] != '\\0')",
    "\t\tlen++;",
    "\treturn len;",
    "\x7d"]

/-- One line for each header that supplies a name, in the order of their names. -/
def includes (d : Dialect) (used : List Supplier) : Emit Unit :=
  match d with
  | .standard =>
    (Header.all.filter fun h => .header h ∈ used).forM fun h =>
      Emit.line [.symbol "#", .word "include", .gap, .symbol "<", .word h.stem, .symbol ".",
        .word "h", .symbol ">"]
  | .openCL => pure ()

/-- The helpers that supply a name, each after an empty line. -/
def library (d : Dialect) (used : List Supplier) : Emit Unit :=
  match d with
  | .standard => pure ()
  | .openCL =>
    [(Helper.stringEquality, streqText), (.stringLength, strlenText)].forM fun (helper, text) => do
      if .helper helper ∈ used then
        Emit.newline
        Emit.lines text

end Emitter.CFamily
