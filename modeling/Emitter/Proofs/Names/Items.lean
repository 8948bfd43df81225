import Emitter.Proofs.Whole.Files
import Emitter.Proofs.Whole.Lines

/-!
# The items of a C file

A printed C file is a list of items: headers, texts of target code, declarations, helpers and the
bodies of functions. The items of a program are listed here in the order of the file, each with the
emission that prints it and the names that are printed in it.
-/

namespace Emitter

open Layout Program Text

namespace Program

variable {p : Program} {ids : List ClassId} {id : ClassId} {c : ClassDef}

/-- The classes that references point at, each with its reference. -/
def resolved (p : Program) (ids : List ClassId) : List (ClassId × ClassDef) :=
  ids.filterMap fun id => (p.classes[id.index.toNat]?).map (id, ·)

/-- The classes of the top-level symbols. -/
def shownClasses (p : Program) : List (ClassId × ClassDef) := p.resolved p.globalClassIds

/-- The enumerations of the top-level symbols. -/
def shownEnums (p : Program) : List EnumDef :=
  p.globalEnumIds.filterMap fun id => p.enums[id.index.toNat]?

/-- The classes whose instances are laid out. -/
def laidOut (p : Program) : List (ClassId × ClassDef) :=
  p.resolved (p.layoutOrder.toOption.getD [])

/-- Whether a function that constructs instances of the class is printed. -/
def constructs (p : Program) (id : ClassId) : Bool := (p.needsConstruction id).toOption.getD false

theorem classOf_eq_ok_iff : p.classOf id = .ok c ↔ p.classes[id.index.toNat]? = some c := by
  unfold classOf
  cases p.classes[id.index.toNat]? <;> simp

theorem mem_resolved : (id, c) ∈ p.resolved ids ↔ id ∈ ids ∧ p.classOf id = .ok c := by
  simp only [resolved, List.mem_filterMap, Option.map_eq_some_iff, Prod.mk.injEq,
    classOf_eq_ok_iff]
  constructor
  · rintro ⟨id, hid, c, hc, rfl, rfl⟩
    exact ⟨hid, hc⟩
  · rintro ⟨hid, hc⟩
    exact ⟨id, hid, c, hc, rfl, rfl⟩

theorem mem_classes_of_classOf (h : p.classOf id = .ok c) : c ∈ p.classes :=
  List.mem_of_getElem? (classOf_eq_ok_iff.mp h)

theorem declares_of_classOf (h : p.classOf id = .ok c) : p.declares (.classDef id) = true := by
  have hlt := (List.getElem?_eq_some_iff.mp (classOf_eq_ok_iff.mp h)).1
  simpa [declares] using hlt

theorem className_eq (h : p.classOf id = .ok c) : p.className id = c.name := by
  simp [className, classOf_eq_ok_iff.mp h]

end Program

namespace CFamily

mutual

/-- The names that a constant value is printed with. -/
def valueNames (p : Program) : ConstValue → List PrintedName
  | .bool b => [.header (if b then "true" else "false") .stdbool]
  | .enumValue id index => PrintedName.ifPresent p (.enumerator id index)
  | .array items => itemNames p items
  | _ => []

def itemNames (p : Program) : List ConstValue → List PrintedName
  | [] => []
  | item :: rest => valueNames p item ++ itemNames p rest

end

variable {cx : Context} {d : Dialect}

mutual

theorem names_constValue (ht : cx.target = .cFamily d) : ∀ (value : ConstValue) {code : Code},
    cx.constValue value = .ok code →
      code.names = (valueNames cx.program value).map (PrintedName.lexeme cx.program)
  | .int n, code, hc => by
      obtain rfl := Except.ok.inj hc
      simp [valueNames]
  | .float x, code, hc => by
      rw [names_float ht hc]
      rfl
  | .bool b, code, hc => by
      obtain rfl := Except.ok.inj hc
      simp [valueNames, Context.truth, ht]
  | .str s, code, hc => by
      obtain rfl := Except.ok.inj hc
      rfl
  | .enumValue id index, code, hc => by
      rw [names_enumValue ht hc]
      rfl
  | .array items, code, hc => by
      obtain ⟨pieces, hpieces, hc⟩ := Result.bind_eq_ok.mp hc
      obtain rfl := Except.ok.inj hc
      simp [Context.table, ht, valueNames, names_constItems ht items hpieces]

theorem names_constItems (ht : cx.target = .cFamily d) :
    ∀ (items : List ConstValue) {pieces : List Code}, cx.constItems items = .ok pieces →
      pieces.flatMap Code.names = (itemNames cx.program items).map (PrintedName.lexeme cx.program)
  | [], pieces, hc => by
      obtain rfl := Except.ok.inj hc
      rfl
  | item :: rest, pieces, hc => by
      obtain ⟨first, hfirst, hc⟩ := Result.bind_eq_ok.mp hc
      obtain ⟨others, hothers, hc⟩ := Result.bind_eq_ok.mp hc
      obtain rfl := Except.ok.inj hc
      simp [itemNames, names_constValue ht item hfirst, names_constItems ht rest hothers]

end

/-- A part of a printed C file. -/
inductive Item
  | header (h : Header)
  | native (text : String)
  | enumeration (e : EnumDef)
  | definition (c : ClassDef) (k : ConstDef)
  | typedef (id : ClassId) (c : ClassDef)
  | constructorPrototype (id : ClassId) (c : ClassDef)
  | prototype (id : ClassId) (c : ClassDef) (m : MethodDef)
  | layout (id : ClassId) (c : ClassDef)
  | resource (name : String) (bytes : List UInt8)
  | table (c : ClassDef) (k : ConstDef)
  | helper (h : Helper) (text : String)
  | constructor (id : ClassId) (c : ClassDef)
  | method (id : ClassId) (c : ClassDef) (m : MethodDef)

namespace Item

/-- The item is the body of a function. -/
def isBody : Item → Bool
  | constructor _ _ | method _ _ _ => true
  | _ => false

/-- What prints the item. -/
def emission (cx : Context) (d : Dialect) : Item → Emit Unit
  | header h =>
    Emit.line [.symbol "#", .word "include", .gap, .symbol "<", .word h.stem, .symbol ".",
      .word "h", .symbol ">"]
  | native text => CFamily.native text
  | enumeration e => CFamily.enumeration cx e
  | definition c k => macroLine cx c k
  | typedef _ c => typedefLine c
  | constructorPrototype _ c => Emit.line (constructorSignature c ++ [.symbol ";"])
  | prototype _ c m => do Emit.line ((← (signature cx d c m : Result Code)) ++ [.symbol ";"])
  | layout _ c => structLayout cx d c
  | resource name bytes => resourceTable d name bytes
  | table c k => do Emit.line (← (constTable cx d c k : Result Code))
  | helper _ text => do
    Emit.newline
    Emit.lines text
  | constructor _ c => constructorBody cx c
  | method _ c m => methodBody cx d c m

/-- The item's lines in the file. -/
def text (cx : Context) (d : Dialect) (item : Item) : String := trimmed (item.emission cx d).text

def linkageNames (visibility : Visibility) : List PrintedName :=
  if visibility.isHidden then [.word "static"] else []

/-- The names in the head of the function that constructs instances. -/
def constructorNames (id : ClassId) (c : ClassDef) : List PrintedName :=
  linkageNames c.visibility ++
    [.word "void", .coined (constructName c.name), .type id, .word "self"]

/-- The names in the head of a function. -/
def signatureNames (cx : Context) (d : Dialect) (id : ClassId) (c : ClassDef) (m : MethodDef) :
    List PrintedName :=
  linkageNames m.visibility ++ Context.typeNames d m.returnType ++
    .coined (functionName c.name m.name) ::
      ((if m.isStatic then [] else [.type id, .word "self"]) ++
        m.params.flatMap
          (fun p => Context.typeNames d p.ty ++ [.coined (cx.target.localName p.name)])) ++
      if m.isStatic && m.params.isEmpty then [.word "void"] else []

/-- The names that setting a field up is printed with. -/
def setupNames (cx : Context) (f : FieldDef) : List PrintedName :=
  let place : List PrintedName := [.word "self", .coined (cx.target.localName f.name)]
  match f.ty.isStorage, f.value with
  | false, some e => place ++ cx.names e
  | _, _ => Context.constructionNames cx.program 0 place f.ty

def storageNames : Dialect → List PrintedName
  | .standard => [.word "static"]
  | .openCL => []

/-- The names in the spelling of a table's elements. -/
def elementNames (d : Dialect) : Ty → List PrintedName
  | .array element _ _ => Context.typeNames d element
  | _ => []

/-- The names that the item is printed with. -/
def names (cx : Context) (d : Dialect) : Item → List PrintedName
  | header h => [.word "include", .word h.stem, .word "h"]
  | native _ | helper _ _ => []
  | enumeration e =>
    if e.values.isEmpty then []
    else .word "enum" :: e.values.map fun value =>
      .coined (e.name ++ "_" ++ upperSnakeCase value.name)
  | definition c k =>
    .word "define" :: .coined (constName c k.emittedName) :: valueNames cx.program k.value
  | typedef _ c => [.word "typedef", .word "struct", .coined c.name, .coined c.name]
  | constructorPrototype id c => constructorNames id c
  | prototype id c m => signatureNames cx d id c m
  | layout _ c =>
    .word "struct" :: .coined c.name ::
      c.fields.flatMap
        (fun f => Context.typeNames d f.ty ++ [.coined (cx.target.localName f.name)]) ++
      if c.fields.isEmpty then [.word "char", .word "unused"] else []
  | resource name _ =>
    storageNames d ++
      [.fixed d.readOnly, .word "unsigned", .word "char", .coined (resourceName name)]
  | table c k =>
    storageNames d ++ .fixed d.readOnly :: elementNames d k.ty ++
      .coined (constName c k.emittedName) :: valueNames cx.program k.value
  | constructor id c =>
    constructorNames id c ++ c.fields.flatMap (setupNames cx) ++
      cx.blockNames (c.constructor?.getD [])
  | method id c m => signatureNames cx d id c m ++ cx.blockNames m.body

/-- The item is about declarations of the program. -/
def Of (p : Program) : Item → Prop
  | header _ | native _ | enumeration _ | resource _ _ | helper _ _ => True
  | definition c k => c ∈ p.classes ∧ k ∈ c.consts
  | typedef id c | constructorPrototype id c | layout id c | constructor id c =>
    p.classOf id = .ok c
  | prototype id c m | method id c m => p.classOf id = .ok c ∧ m ∈ c.methods
  | table c k => c ∈ p.classes ∧ k ∈ c.constArrays

end Item

section Printed

variable {p : Program} {item : Item} {id : ClassId} {c : ClassDef} {code : Code}

theorem names_linkage (visibility : Visibility) : (linkage visibility).names =
    (Item.linkageNames visibility).map (PrintedName.lexeme p) := by
  unfold linkage Item.linkageNames
  split_ifs <;> rfl

theorem names_constructorSignature (hc : p.classOf id = .ok c) : (constructorSignature c).names =
    (Item.constructorNames id c).map (PrintedName.lexeme p) := by
  simp [constructorSignature, Item.constructorNames, selfParameter, names_linkage (p := p),
    Program.className_eq hc]

/-- The parameters of a function. -/
theorem names_mapM_declaration {params : List Param} {codes : List Code}
    (h : params.mapM (fun p => declaration cx d p.ty (cx.localWord p.name)) = .ok codes) :
    codes.flatMap Code.names =
      (params.flatMap fun p =>
        Context.typeNames d p.ty ++ [PrintedName.coined (cx.target.localName p.name)]).map
        (PrintedName.lexeme cx.program) := by
  have hall := Result.forall₂_of_mapM_eq_ok h
  clear h
  induction hall with
  | nil => rfl
  | @cons param first rest others hfirst _ ih =>
      have hnames : first.names = _ := names_declaration hfirst
      simp [ih, hnames]

theorem isEmpty_mapM {α β : Type} {f : α → Result β} {xs : List α} {ys : List β}
    (h : xs.mapM f = .ok ys) : ys.isEmpty = xs.isEmpty := by
  cases Result.forall₂_of_mapM_eq_ok h with
  | nil | cons => rfl

theorem names_signature (hc : cx.program.classOf id = .ok c) {m : MethodDef}
    (h : signature cx d c m = .ok code) : code.names =
      (Item.signatureNames cx d id c m).map (PrintedName.lexeme cx.program) := by
  obtain ⟨returned, hreturned, h⟩ := Result.bind_eq_ok.mp h
  obtain ⟨params, hparams, h⟩ := Result.bind_eq_ok.mp h
  obtain rfl := Except.ok.inj h
  have hnames := names_mapM_declaration hparams
  have hempty := isEmpty_mapM hparams
  cases hstatic : m.isStatic with
  | false =>
      simp [Item.signatureNames, names_linkage (p := cx.program), names_typeCode hreturned, hnames,
        hstatic, selfParameter, Program.className_eq hc]
  | true =>
      cases hnone : m.params.isEmpty with
      | false =>
          simp [Item.signatureNames, names_linkage (p := cx.program), names_typeCode hreturned,
            hnames, hstatic, hempty, hnone]
      | true =>
          simp [Item.signatureNames, names_linkage (p := cx.program), names_typeCode hreturned,
            hstatic, hempty, List.isEmpty_iff.mp hnone]

theorem prints_fieldSetup (f : FieldDef) :
    (fieldSetup cx c f).Prints cx (Item.setupNames cx f) := by
  have hplace : (selfField cx f).names =
      [PrintedName.word "self", .coined (cx.target.localName f.name)].map
        (PrintedName.lexeme cx.program) := by
    simp [selfField, Context.localWord]
  have hcalls := prints_constructCalls 0 hplace f.ty
  unfold fieldSetup Item.setupNames
  cases f.ty.isStorage with
  | true =>
      dsimp only
      split_ifs
      · exact (Emit.prints_note _).seq hcalls
      · exact hcalls
  | false =>
      cases f.value with
      | none => exact hcalls
      | some e =>
          refine Emit.prints_lift fun code hcode => Emit.prints_line ?_
          have hall := (Context.lists_of_eq hplace).append (Context.lists_code e hcode)
          simpa using hall

theorem prints_enumeration (e : EnumDef) :
    (enumeration cx e).Prints cx (Item.names cx d (.enumeration e)) := by
  simp only [enumeration, Item.names]
  split_ifs
  · exact Emit.prints_note _
  · have hvalues := @Emit.prints_forM _ cx
      (fun entry => Emit.line ([Lexeme.word (e.name ++ "_" ++ upperSnakeCase entry.1.name)] ++
        Code.operator "=" ++ [Lexeme.number (toString entry.2)] ++
          (if entry.2 + 1 < e.values.length then [Lexeme.symbol ","] else [])))
      (fun entry => [PrintedName.coined (e.name ++ "_" ++ upperSnakeCase entry.1.name)])
      e.values.zipIdx
      fun entry _ =>
        Emit.prints_line_of_eq (by split_ifs <;> rfl)
    have hhead : (Emit.line [.word "enum", .gap, .symbol "\x7b"]).Prints cx [.word "enum"] :=
      Emit.prints_line_of_eq rfl
    have hend : (Emit.line [.symbol "\x7d", .symbol ";"]).Prints cx [] :=
      Emit.prints_line_of_eq rfl
    have hall := (Emit.prints_note (.enumeration cx.target e.name)).seq
      (Emit.prints_newline.seq (hhead.seq (hvalues.deeper.seq hend)))
    have hnames : (e.values.zipIdx.flatMap fun entry =>
        [PrintedName.coined (e.name ++ "_" ++ upperSnakeCase entry.1.name)]) =
          e.values.map fun value => .coined (e.name ++ "_" ++ upperSnakeCase value.name) := by
      rw [← List.map_eq_flatMap]
      conv_rhs => rw [← List.zipIdx_map_fst 0 e.values, List.map_map]
      rfl
    exact hall.of_eq (by rw [List.append_nil, hnames]; rfl)

theorem prints_structLayout :
    (structLayout cx d c).Prints cx (Item.names cx d (.layout id c)) := by
  have hhead : (Emit.line [.word "struct", .gap, .word c.name, .gap, .symbol "\x7b"]).Prints cx
      [.word "struct", .coined c.name] := Emit.prints_line_of_eq rfl
  have hend : (Emit.line [.symbol "\x7d", .symbol ";"]).Prints cx [] := Emit.prints_line_of_eq rfl
  have hfields := @Emit.prints_forM _ cx (fun f : FieldDef => do
      Emit.line
        ((← (declaration cx d f.ty (cx.localWord f.name) : Result Code)) ++ [Lexeme.symbol ";"]))
    (fun f => Context.typeNames d f.ty ++ [PrintedName.coined (cx.target.localName f.name)])
      c.fields fun f _ =>
      Emit.prints_lift fun code hcode => Emit.prints_line_of_eq (by
        simpa [Context.localWord] using names_declaration hcode)
  have hunused : (if c.fields.isEmpty then
      Emit.line [.word "char", .gap, .word "unused", .symbol ";"] else pure ()).Prints cx
        (if c.fields.isEmpty then [.word "char", .word "unused"] else []) := by
    split_ifs
    · exact Emit.prints_line_of_eq rfl
    · exact Emit.prints_pure ()
  have hall := (Emit.prints_note (.layout cx.target c.name)).seq (Emit.prints_newline.seq
    (hhead.seq ((hfields.seq hunused).deeper.seq hend)))
  exact hall.of_eq (by simp [Item.names])

theorem prints_byteLines (rows : List (List UInt8)) : (byteLines rows).Prints cx [] := by
  have hrow : ∀ row : List UInt8,
      (Code.commaSeparated (row.map fun b => [byteLexeme b])).names = [] := by
    intro row
    simp [byteLexeme]
  induction rows with
  | nil => exact Emit.prints_pure ()
  | cons row rest ih =>
      cases rest with
      | nil => exact Emit.prints_line_of_eq (hrow row)
      | cons next rest =>
          exact (Emit.prints_line_of_plain (by simp [hrow row])).seq ih

theorem names_tableStorage (d : Dialect) :
    d.tableStorage.names = (Item.storageNames d).map (PrintedName.lexeme p) := by
  cases d <;> rfl

theorem prints_resourceTable (name : String) (bytes : List UInt8) :
    (resourceTable d name bytes).Prints cx (Item.names cx d (.resource name bytes)) := by
  have hhead : (Emit.line (d.tableStorage ++ [d.readOnly, Lexeme.gap, Lexeme.word "unsigned",
      Lexeme.gap, Lexeme.word "char", Lexeme.gap, Lexeme.word (resourceName name),
        Lexeme.symbol "[", Lexeme.symbol "]"] ++ Code.operator "=" ++
          [Lexeme.symbol "\x7b"])).Prints cx (Item.names cx d (.resource name bytes)) := by
    refine Emit.prints_line_of_eq ?_
    cases d <;> rfl
  have hend : (Emit.line [.symbol "\x7d", .symbol ";"]).Prints cx [] := Emit.prints_line_of_eq rfl
  have hrows := @prints_byteLines cx (byteRows bytes.length bytes)
  exact (Emit.prints_newline.seq (hhead.seq (hrows.deeper.seq hend))).of_eq (by simp)

theorem lists_constTable (ht : cx.target = .cFamily d) {k : ConstDef}
    (h : constTable cx d c k = .ok code) : cx.Lists (Item.names cx d (.table c k)) code.names := by
  unfold constTable at h
  split at h
  case h_1 element storage length items hty hvalue =>
    obtain ⟨type, htype, h⟩ := Result.bind_eq_ok.mp h
    obtain ⟨value, hvalue', h⟩ := Result.bind_eq_ok.mp h
    obtain rfl := Except.ok.inj h
    have hread : ∀ code : Code, Code.names (d.readOnly :: code) = d.readOnly :: code.names := by
      cases d <;> exact fun _ => rfl
    have htype := names_typeCode htype
    have hvalue := names_constValue ht k.value hvalue'
    have hstorage := names_tableStorage (p := cx.program) d
    simp only [Item.names, hty, Item.elementNames]
    split_ifs
    · refine (Context.lists_of_eq ?_ : cx.Lists
        (Item.storageNames d ++ Context.typeNames d element ++
        .fixed d.readOnly :: .coined (constName c k.emittedName) :: valueNames cx.program k.value)
          _).congr ?_
      · simp [htype, hvalue, hstorage, hread]
      · intro n
        simp only [List.mem_append, List.mem_cons]
        tauto
    · exact Context.lists_of_eq (by simp [htype, hvalue, hstorage, hread])
  case h_2 => simp [Context.unsupported] at h

theorem prints_constructorBody (hc : cx.program.classOf id = .ok c) :
    (constructorBody cx c).Prints cx (Item.names cx d (.constructor id c)) := by
  have hhead : (Emit.line (constructorSignature c)).Prints cx (Item.constructorNames id c) :=
    Emit.prints_line_of_eq (names_constructorSignature hc)
  have hfields := @Emit.prints_forM _ cx (fieldSetup cx c) _ c.fields fun f _ => prints_fieldSetup f
  have hstmts := @Context.prints_statements cx (c.constructor?.getD [])
    fun s _ => Context.prints_statement s
  have hall := Emit.prints_newline.seq (hhead.seq (hfields.seq hstmts).braced)
  exact hall.of_eq (by simp [Item.names])

theorem prints_methodBody (hc : cx.program.classOf id = .ok c) (m : MethodDef) :
    (methodBody cx d c m).Prints cx (Item.names cx d (.method id c m)) := by
  have hbody : ∀ code, signature cx d c m = .ok code →
      (Emit.line code >>= fun _ => cx.body m.body).Prints cx
        (Item.names cx d (.method id c m)) := by
    intro code hcode
    have hhead : (Emit.line code).Prints cx (Item.signatureNames cx d id c m) :=
      Emit.prints_line_of_eq (names_signature hc hcode)
    exact hhead.seq (Context.prints_body m.body)
  have hnote := @Emit.prints_note cx (.method cx.target c.name m.name)
  exact hnote.seq (Emit.prints_newline.seq (Emit.prints_lift hbody))

theorem prints_item (ht : cx.target = .cFamily d) (h : item.Of cx.program) :
    (item.emission cx d).Prints cx (item.names cx d) := by
  cases item with
  | header h => exact Emit.prints_line_of_eq rfl
  | native text => exact Emit.prints_newline.seq (Emit.prints_lines text)
  | helper h text => exact Emit.prints_newline.seq (Emit.prints_lines text)
  | enumeration e => exact prints_enumeration e
  | definition c k =>
      refine Emit.prints_lift fun value hvalue => Emit.prints_line_of_eq ?_
      split_ifs <;> simp [names_constValue ht k.value hvalue, Item.names]
  | typedef id c => exact Emit.prints_line_of_eq rfl
  | constructorPrototype id c =>
      exact Emit.prints_line_of_eq (by simp [names_constructorSignature h, Item.names])
  | prototype id c m =>
      refine Emit.prints_lift fun code hcode => Emit.prints_line_of_eq ?_
      simp [names_signature h.1 hcode, Item.names]
  | layout id c => exact prints_structLayout
  | resource name bytes => exact prints_resourceTable name bytes
  | table c k =>
      exact Emit.prints_lift fun code hcode => Emit.prints_line (lists_constTable ht hcode)
  | constructor id c => exact prints_constructorBody h
  | method id c m => exact prints_methodBody h.1 m

end Printed

/-- The items between the headers and the bodies of functions. -/
def declarationItems (p : Program) : List Item :=
  p.natives.map .native ++ p.shownEnums.map .enumeration ++
    p.shownClasses.flatMap (fun (_, c) => c.consts.map (.definition c)) ++
    p.shownClasses.flatMap (fun (id, c) => if c.isStatic then [] else [.typedef id c]) ++
    p.shownClasses.flatMap (fun (id, c) =>
      (if p.constructs id then [.constructorPrototype id c] else []) ++
        c.methods.map (.prototype id c)) ++
    p.laidOut.map (fun (id, c) => .layout id c) ++
    p.resources.entries.map (fun (name, bytes) => .resource name bytes) ++
    p.shownClasses.flatMap (fun (_, c) => c.constArrays.map (.table c))

/-- The bodies of functions. -/
def bodyItems (p : Program) : List Item :=
  p.shownClasses.flatMap fun (id, c) =>
    (if p.constructs id then [.constructor id c] else []) ++ c.methods.map (.method id c)

/-- The headers and helpers that supply a name in the declarations and bodies. -/
def supplied (cx : Context) (d : Dialect) : List Supplier :=
  ((bodyItems cx.program ++ declarationItems cx.program).flatMap (Item.names cx d)).filterMap
    PrintedName.supplier?

def headerItems (cx : Context) (d : Dialect) : List Item :=
  match d with
  | .standard => (Header.all.filter fun h => .header h ∈ supplied cx d).map .header
  | .openCL => []

def helperItems (cx : Context) (d : Dialect) : List Item :=
  match d with
  | .standard => []
  | .openCL =>
    ([(Helper.stringEquality, streqText), (.stringLength, strlenText)].filter fun (h, _) =>
      .helper h ∈ supplied cx d).map fun (h, text) => .helper h text

/-- The items of the printed file, in order. -/
def items (cx : Context) (d : Dialect) : List Item :=
  headerItems cx d ++ declarationItems cx.program ++ helperItems cx d ++ bodyItems cx.program

section Listed

variable {p : Program} {id : ClassId} {c : ClassDef}

/-- The enumerations come before everything but headers and texts of target code. -/
theorem exists_declarationItems (p : Program) : ∃ rest, declarationItems p =
    (p.natives.map Item.native ++ p.shownEnums.map Item.enumeration) ++ rest := by
  simp only [declarationItems, List.append_assoc]
  simp only [← List.append_assoc (p.natives.map Item.native)]
  exact ⟨_, rfl⟩

theorem enumeration_mem {e : EnumDef} (h : e ∈ p.shownEnums) :
    .enumeration e ∈ declarationItems p := by
  obtain ⟨rest, hrest⟩ := exists_declarationItems p
  rw [hrest]
  exact List.mem_append_left _ (List.mem_append_right _ (List.mem_map_of_mem h))

theorem definition_mem (h : (id, c) ∈ p.shownClasses) {k : ConstDef} (hk : k ∈ c.consts) :
    .definition c k ∈ declarationItems p := by
  have hsection : Item.definition c k ∈ p.shownClasses.flatMap fun (_, c) =>
      c.consts.map (.definition c) := List.mem_flatMap.mpr ⟨_, h, List.mem_map_of_mem hk⟩
  simp only [declarationItems, List.mem_append, hsection]
  tauto

theorem constructorPrototype_mem (h : (id, c) ∈ p.shownClasses) (hc : p.constructs id = true) :
    .constructorPrototype id c ∈ declarationItems p := by
  have hsection : Item.constructorPrototype id c ∈ p.shownClasses.flatMap fun (id, c) =>
      (if p.constructs id then [.constructorPrototype id c] else []) ++
        c.methods.map (.prototype id c) := List.mem_flatMap.mpr ⟨_, h, by simp [hc]⟩
  simp only [declarationItems, List.mem_append, hsection]
  tauto

theorem prototype_mem (h : (id, c) ∈ p.shownClasses) {m : MethodDef} (hm : m ∈ c.methods) :
    .prototype id c m ∈ declarationItems p := by
  have hsection : Item.prototype id c m ∈ p.shownClasses.flatMap fun (id, c) =>
      (if p.constructs id then [.constructorPrototype id c] else []) ++
        c.methods.map (.prototype id c) :=
    List.mem_flatMap.mpr ⟨_, h, List.mem_append_right _ (List.mem_map_of_mem hm)⟩
  simp only [declarationItems, List.mem_append, hsection]
  tauto

theorem resource_mem {name : String} {bytes : List UInt8}
    (h : (name, bytes) ∈ p.resources.entries) : .resource name bytes ∈ declarationItems p := by
  have hsection : Item.resource name bytes ∈ p.resources.entries.map fun (name, bytes) =>
      .resource name bytes := List.mem_map_of_mem h
  simp only [declarationItems, List.mem_append, hsection]
  tauto

theorem table_mem (h : (id, c) ∈ p.shownClasses) {k : ConstDef} (hk : k ∈ c.constArrays) :
    .table c k ∈ declarationItems p := by
  have hsection : Item.table c k ∈ p.shownClasses.flatMap fun (_, c) =>
      c.constArrays.map (.table c) := List.mem_flatMap.mpr ⟨_, h, List.mem_map_of_mem hk⟩
  simp only [declarationItems, List.mem_append, hsection]
  tauto

end Listed

end CFamily

end Emitter
