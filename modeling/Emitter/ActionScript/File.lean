import Emitter.Target.Statement

/-!
# The ActionScript files

Every top-level symbol becomes a class in a file of its own. The functions that built-ins were
lowered to follow in a class `Ci` when the other files use any.
-/

namespace Emitter.ActionScript

open Layout Program Text

/-- Where the files go, and the package of their classes if they are in one. -/
structure Placement where
  directory : Path
  package : Option String

def visibilityWord : Visibility → Lexeme
  | .dead | .hidden => .word "private"
  | .internal => .word "internal"
  | .exported => .word "public"

/-- A file with one class, whose inside is given. -/
def classFile (place : Placement) (name : String) (visibility : Visibility) (inside : Emit Unit) :
    Emit Unit := do
  Emit.ofSteps [.openFile (place.directory.join ⟨name ++ ".as"⟩)]
  Emit.line <|
    match place.package with
    | some package => [.word "package", .gap, .word package]
    | none => [.word "package"]
  Emit.braced do
    Emit.line [.word "import", .gap, .word "flash", .symbol ".", .word "utils", .symbol ".",
      .word "ByteArray", .symbol ";"]
    Emit.newline
    Emit.line [visibilityWord visibility, .gap, .word "class", .gap, .word name]
    inside.braced
  Emit.ofSteps [.closeFile]

/-- The start of a constant up to its type. -/
def constHead (visibility : Visibility) (name : String) : Code :=
  [visibilityWord visibility, .gap, .word "static", .gap, .word "const", .gap,
    .word (upperSnakeCase name)]

/-- An enumeration as a class of integer constants. -/
def enumeration (place : Placement) (e : EnumDef) : Emit Unit := do
  Emit.note (.enumeration .actionScript e.name)
  classFile place e.name e.visibility <|
    e.values.zipIdx.forM fun (value, i) =>
      Emit.line (constHead .exported value.name ++ Code.operator ":" ++ [.word "int"] ++
        Code.operator "=" ++ [.number (toString i), .symbol ";"])

/-- A field. One of storage type is never assigned again. -/
def fieldLine (cx : Context) (f : FieldDef) : Emit Unit := do
  Emit.put ([visibilityWord f.visibility, .gap, .word (if f.ty.isStorage then "const" else "var"),
    .gap] ++ (← (typed cx f.name f.ty : Result Code)))
  initializer cx f.name f.ty f.value
  Emit.line [.symbol ";"]

/-- A constant. Only public ones exist at run time; all others are replaced by their values. -/
def constLine (cx : Context) (k : ConstDef) : Emit Unit := do
  if k.visibility = .exported then
    let type ← (typeCode cx k.ty : Result Code)
    let value ← (cx.constValue k.value : Result Code)
    Emit.line (constHead .exported k.emittedName ++ Code.operator ":" ++ type ++
      Code.operator "=" ++ value ++ [.symbol ";"])

def methodLines (cx : Context) (m : MethodDef) : Emit Unit := do
  Emit.newline
  let params ← (m.params.mapM fun p => typed cx p.name p.ty : Result _)
  let returned ← (typeCode cx m.returnType : Result Code)
  Emit.line ([visibilityWord m.visibility, .gap] ++
    (if m.isStatic then [.word "static", .gap] else []) ++
    [.word "function", .gap, cx.localWord m.name] ++
    Code.parenthesized (.commaSeparated params) ++ Code.operator ":" ++ returned)
  cx.body m.body

def memberLines (cx : Context) : Member → Emit Unit
  | .field f => fieldLine cx f
  | .const k => constLine cx k
  | .method m => methodLines cx m

def constructorLines (cx : Context) (c : ClassDef) (stmts : Block) : Emit Unit := do
  Emit.newline
  Emit.line [.word "public", .gap, .word "function", .gap, .word c.name, .symbol "(", .symbol ")"]
  cx.body stmts

/-- A constant table. It is private, as nothing outside its class refers to it. -/
def tableLine (cx : Context) (k : ConstDef) : Emit Unit := do
  let value ← (cx.constValue k.value : Result Code)
  Emit.line (constHead .hidden k.emittedName ++ Code.operator ":" ++ [.word "Array"] ++
    Code.operator "=" ++ value ++ [.symbol ";"])

def classDef (cx : Context) (place : Placement) (id : ClassId) : Emit Unit := do
  let c ← (cx.classOf id : Result ClassDef)
  Emit.note (.classFile c.name)
  let inside := { cx with current := some id }
  classFile place c.name c.visibility do
    c.members.forM (memberLines inside)
    match c.constructor? with
    | some stmts => constructorLines inside c stmts
    | none => pure ()
    c.constArrays.forM (tableLine inside)

/-- The files of the top-level symbols, in order. -/
def symbolFiles (cx : Context) (place : Placement) : Emit Unit := do
  if !cx.program.natives.isEmpty then (cx.unsupported .topLevelNatives : Result Unit)
  cx.program.globals.forM fun
    | .enumeration id => do enumeration place (← (cx.enumOf id : Result EnumDef))
    | .classDef id => classDef cx place id

def substringText : String :=
  "\n".intercalate [
    "public static function substring(s : String, offset : int, length : int) : String",
    "\x7b",
    "\treturn s.substring(offset, offset + length);",
    "\x7d"]

def copyArrayText : String :=
  "\n".intercalate [
    "public static function copyArray(sa : Object, soffset : int, " ++
      "da : Object, doffset : int, length : int) : void",
    "\x7b",
    "\tif (sa == da && soffset < doffset) \x7b",
    "\t\tfor (var i : int = length - 1; i >= 0; i--)",
    "\t\t\tda[doffset + i] = sa[soffset + i];",
    "\t\x7d",
    "\telse \x7b",
    "\t\tfor (var j : int = 0; j < length; j++)",
    "\t\t\tda[doffset + j] = sa[soffset + j];",
    "\t\x7d",
    "\x7d"]

def bytesToStringText : String :=
  "\n".intercalate [
    "public static function bytesToString(a : ByteArray, offset : int, length : int) : String",
    "\x7b",
    "\ta.position = offset;",
    "\treturn a.readUTFBytes(length);",
    "\x7d"]

def clearArrayText : String :=
  "\n".intercalate [
    "public static function clearArray(a : Object) : void",
    "\x7b",
    "\tfor (var i : int = 0; i < a.length; i++)",
    "\t\ta[i] = 0;",
    "\x7d"]

def divideElementText : String :=
  "\n".intercalate [
    "public static function divideElement(a : Object, i : int, v : int) : int",
    "\x7b",
    "\treturn a[i] = int(a[i] / v);",
    "\x7d"]

/-- The functions of the helper class, in the order they are printed. -/
def helperTexts : List (Helper × String) :=
  [(.substring, substringText), (.copyArray, copyArrayText),
    (.bytesToString, bytesToStringText), (.clearArray, clearArrayText),
    (.divideElement, divideElementText)]

/-- The texts with an empty line between any two. -/
def separatedLines : List String → Emit Unit
  | [] => pure ()
  | [text] => Emit.lines text
  | text :: rest => do
    Emit.lines text
    Emit.newline
    separatedLines rest

/-- The helper class with the functions that supply a name, if there are any. -/
def helperFile (place : Placement) (used : List Supplier) : Emit Unit := do
  let needed := helperTexts.filter fun (helper, _) => .helper helper ∈ used
  if needed.isEmpty then pure ()
  else
    Emit.note (.helperClass (needed.map Prod.fst))
    classFile place "Ci" .internal (separatedLines (needed.map Prod.snd))

/-- All files of a program. -/
def files (cx : Context) (place : Placement) : Emit Unit := do
  let symbols := symbolFiles cx place
  symbols
  helperFile place symbols.suppliers

end Emitter.ActionScript
