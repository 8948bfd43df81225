import Emitter.CFamily.Library
import Emitter.Target.Statement

/-!
# The C file

A whole program goes to one file: headers, texts of target code, enumerations, constants, names of
structures, signatures, layouts of structures, resources, constant tables, helpers, and the bodies
of functions. The bodies and declarations are printed first, since the headers and helpers in front
of them depend on what they use.
-/

namespace Emitter.CFamily

open Layout Program Text

/-- Functions of hidden classes and methods are not seen outside the file. -/
def linkage (visibility : Visibility) : Code :=
  if visibility.isHidden then [.word "static", .gap] else []

/-- The parameter that an instance is passed in. -/
def selfParameter (c : ClassDef) : Code := [.word c.name, .gap, .symbol "*", .word "self"]

def constructorSignature (c : ClassDef) : Code :=
  linkage c.visibility ++ [.word "void", .gap, .word (constructName c.name)] ++
    Code.parenthesized (selfParameter c)

def signature (cx : Context) (d : Dialect) (c : ClassDef) (m : MethodDef) : Result Code := do
  let returned ← typeCode cx d m.returnType
  let params ← m.params.mapM fun p => declaration cx d p.ty (cx.localWord p.name)
  let all := (if m.isStatic then [] else [selfParameter c]) ++ params
  return linkage m.visibility ++ beforeName returned ++ .word (functionName c.name m.name) ::
    Code.parenthesized (if all.isEmpty then [.word "void"] else Code.commaSeparated all)

/-- The field of the current instance. -/
def selfField (cx : Context) (f : FieldDef) : Code :=
  [.word "self", .symbol "->", cx.localWord f.name]

/-- Sets a field up: its explicit initializer, or what its storage type constructs. -/
def fieldSetup (cx : Context) (c : ClassDef) (f : FieldDef) : Emit Unit := do
  match f.ty.isStorage, f.value with
  | false, some e =>
    Emit.line (selfField cx f ++ Code.operator "=" ++ (← cx.inline e) ++ [.symbol ";"])
  | _, value =>
    if value.isSome then Emit.note (.initializerDropped cx.target (c.name ++ "." ++ f.name))
    constructCalls cx 0 (selfField cx f) f.ty

/-- The function that constructs instances: the fields in order, then the constructor. -/
def constructorBody (cx : Context) (c : ClassDef) : Emit Unit := do
  Emit.newline
  Emit.line (constructorSignature c)
  Emit.braced do
    c.fields.forM (fieldSetup cx c)
    cx.statements (c.constructor?.getD [])

def methodBody (cx : Context) (d : Dialect) (c : ClassDef) (m : MethodDef) : Emit Unit := do
  Emit.note (.method cx.target c.name m.name)
  Emit.newline
  Emit.line (← (signature cx d c m : Result Code))
  cx.body m.body

/-- The classes of the top-level symbols, each with whether it needs construction. -/
def printedClasses (cx : Context) : Result (List (ClassDef × Bool)) :=
  lookedUp do
    (← cx.program.globalClasses).mapM fun (id, c) => do
      return (c, ← cx.program.needsConstruction id)

def bodies (cx : Context) (d : Dialect) : Emit Unit := do
  (← (printedClasses cx : Result _)).forM fun (c, constructed) => do
    if constructed then constructorBody cx c
    c.methods.forM (methodBody cx d c)

def native (text : String) : Emit Unit := do
  Emit.newline
  Emit.lines text

/-- The enumerators with their values. An empty enumeration is left out. -/
def enumeration (cx : Context) (e : EnumDef) : Emit Unit := do
  if e.values.isEmpty then Emit.note (.emptyEnumeration cx.target e.name)
  else
    Emit.note (.enumeration cx.target e.name)
    Emit.newline
    Emit.line [.word "enum", .gap, .symbol "\x7b"]
    Emit.deeper do
      e.values.zipIdx.forM fun (value, i) =>
        Emit.line ([.word (e.name ++ "_" ++ upperSnakeCase value.name)] ++ Code.operator "=" ++
          [.number (toString i)] ++ (if i + 1 < e.values.length then [.symbol ","] else []))
    Emit.line [.symbol "\x7d", .symbol ";"]

/-- A constant as a macro. A number below zero gets parentheses. -/
def macroLine (cx : Context) (c : ClassDef) (k : ConstDef) : Emit Unit := do
  let value ← (cx.constValue k.value : Result Code)
  Emit.line ([.symbol "#", .word "define", .gap, .word (constName c k.emittedName), .gap] ++
    if k.value.isBelowZero then Code.parenthesized value else value)

def typedefLine (c : ClassDef) : Emit Unit :=
  Emit.line [.word "typedef", .gap, .word "struct", .gap, .word c.name, .gap, .word c.name,
    .symbol ";"]

def prototypes (cx : Context) (d : Dialect) (c : ClassDef) (constructed : Bool) : Emit Unit := do
  if constructed then Emit.line (constructorSignature c ++ [.symbol ";"])
  c.methods.forM fun m => do
    Emit.line ((← (signature cx d c m : Result Code)) ++ [.symbol ";"])

/-- The layout of a class's instances. One without fields gets a member of its own. -/
def structLayout (cx : Context) (d : Dialect) (c : ClassDef) : Emit Unit := do
  Emit.note (.layout cx.target c.name)
  Emit.newline
  Emit.line [.word "struct", .gap, .word c.name, .gap, .symbol "\x7b"]
  Emit.deeper do
    c.fields.forM fun f => do
      Emit.line ((← (declaration cx d f.ty (cx.localWord f.name) : Result Code)) ++ [.symbol ";"])
    if c.fields.isEmpty then
      Emit.line [.word "char", .gap, .word "unused", .symbol ";"]
  Emit.line [.symbol "\x7d", .symbol ";"]

/-- The bytes in rows of sixteen. -/
def byteRows : Nat → List UInt8 → List (List UInt8)
  | 0, _ => []
  | _, [] => []
  | fuel + 1, bytes => bytes.take 16 :: byteRows fuel (bytes.drop 16)

/-- A byte as two hexadecimal digits. -/
def byteLexeme (b : UInt8) : Lexeme :=
  .number ("0x" ++ String.ofList [Nat.digitChar (b.toNat / 16), Nat.digitChar (b.toNat % 16)])

/-- The lines of a table of bytes, all but the last with a comma at their end. -/
def byteLines : List (List UInt8) → Emit Unit
  | [] => pure ()
  | [row] => Emit.line (Code.commaSeparated (row.map fun b => [byteLexeme b]))
  | row :: rest => do
    Emit.line (Code.commaSeparated (row.map fun b => [byteLexeme b]) ++ [.symbol ","])
    byteLines rest

def resourceTable (d : Dialect) (name : String) (bytes : List UInt8) : Emit Unit := do
  Emit.newline
  Emit.line (d.tableStorage ++ [d.readOnly, .gap, .word "unsigned", .gap, .word "char", .gap,
    .word (resourceName name), .symbol "[", .symbol "]"] ++ Code.operator "=" ++ [.symbol "\x7b"])
  Emit.deeper (byteLines (byteRows bytes.length bytes))
  Emit.line [.symbol "\x7d", .symbol ";"]

/-- A constant table. Its elements are read-only, also where they are pointers. -/
def constTable (cx : Context) (d : Dialect) (c : ClassDef) (k : ConstDef) : Result Code := do
  match k.ty, k.value with
  | .array element _ _, .array items =>
    let type ← typeCode cx d element
    let qualified :=
      if type.endsInStar then type ++ [d.readOnly, .gap] else d.readOnly :: .gap :: type ++ [.gap]
    return d.tableStorage ++ qualified ++ [.word (constName c k.emittedName), .symbol "[",
      .number (toString items.length), .symbol "]"] ++ Code.operator "=" ++
      (← cx.constValue k.value) ++ [.symbol ";"]
  | _, _ => cx.unsupported (.scalarTable k.emittedName)

def declarations (cx : Context) (d : Dialect) : Emit Unit := do
  let p := cx.program
  p.natives.forM native
  (← (lookedUp p.globalEnums : Result _)).forM fun (_, e) => enumeration cx e
  let classes ← (printedClasses cx : Result _)
  Emit.group (classes.forM fun (c, _) => c.consts.forM (macroLine cx c))
  Emit.group (classes.forM fun (c, _) => if c.isStatic then pure () else typedefLine c)
  Emit.group (classes.forM fun (c, constructed) => prototypes cx d c constructed)
  (← (lookedUp p.layoutOrder : Result _)).forM fun id => do
    structLayout cx d (← (cx.classOf id : Result ClassDef))
  p.resources.entries.forM fun (name, bytes) => resourceTable d name bytes
  Emit.group (classes.forM fun (c, _) => c.constArrays.forM fun k => do
    Emit.line (← (constTable cx d c k : Result Code)))

/-- The segments without empty lines in front, with one empty line between any two. -/
def joinSegments (segments : List String) : String :=
  let trimmed := segments.map fun s => String.ofList (s.toList.dropWhile (· = '\n'))
  "\n".intercalate (trimmed.filter (· ≠ ""))

/-- Prints the program into the file at `path`. -/
def assemble (cx : Context) (d : Dialect) (path : Path) : Run Unit := do
  let bodies := bodies cx d
  let declarations := declarations cx d
  let bodyText ← Run.sectionText bodies
  let declarationText ← Run.sectionText declarations
  let used := bodies.suppliers ++ declarations.suppliers
  let libraryText ← Run.sectionText (library d used)
  let includeText ← Run.sectionText (includes d used)
  Run.perform (Emit.ofSteps [.note (.assembling cx.target path), .openFile path])
  let text := joinSegments [includeText, declarationText, libraryText, bodyText]
  modify fun desk => { desk with writer := desk.writer.writeRaw text }
  Run.perform (Emit.ofSteps [.closeFile])

/-- Where the file goes: the output path, with the target's extension if it has none. -/
def outputPath (t : Target) (output : Path) : Path :=
  if output.extension?.isSome then output else output.withExtension t.extension

end Emitter.CFamily
