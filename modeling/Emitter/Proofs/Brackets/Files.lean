import Emitter.Proofs.Brackets.Statement
import Emitter.Proofs.Names.Declared
import Emitter.Proofs.Whole.ConstantLines

/-!
# Brackets in printed files

Every part of a printed file closes the brackets it opens, and so do the files put together from
them: outside literals brackets are properly nested, and every literal ends on its line.
-/

namespace Emitter

open Brackets Layout Program Text

/-- An emission that closes what it opens prints a text that does. -/
theorem Emit.neutral_text {e : Emit Unit} {text : String}
    (hstay : ∀ step ∈ e.steps, step.staysInFile = true) (hok : e.outcome = .ok ())
    (h : e.PrintsText text) (hnested : e.IsNested) : Neutral text := by
  intro awaited
  obtain ⟨notices, hplay⟩ := h.plays .new [] ⟨rfl, rfl⟩
  have hsteps : Step.nestAll awaited e.steps = some awaited :=
    hnested awaited e.steps () (by rw [← hok])
  simpa [Writer.further, Writer.new] using
    Desk.read_of_play hstay hplay hsteps (r := awaiting awaited) rfl

theorem neutral_newlines {front : String} (h : ∀ c ∈ front.toList, c = '\n') : Neutral front :=
  Unmarked.neutral fun c hc => by
    rw [h c hc]
    decide

theorem Brackets.Neutral.trimmed {text : String} (h : Neutral text) : Neutral (trimmed text) := by
  obtain ⟨front, hfront, htext⟩ := exists_trimmed text
  intro awaited
  have hread := h awaited
  rwa [htext, Reader.read_append, neutral_newlines hfront awaited, Option.bind_some] at hread

theorem Spread.neutral {texts : List String} {contents : String} (h : Spread texts contents)
    (htexts : ∀ text ∈ texts, Neutral text) : Neutral contents := by
  induction h with
  | nil => exact .empty
  | newline h ih => exact (Unmarked.neutral (by decide)).append (ih htexts)
  | text t h ih =>
      obtain ⟨ht, hrest⟩ := List.forall_mem_cons.mp htexts
      exact ht.append (ih hrest)

namespace Text

/-- Within a line nothing ends. -/
theorem linesFrom_append {line cs rest : List Char} (h : '\n' ∉ cs) :
    linesFrom line (cs ++ rest) = linesFrom (line ++ cs) rest := by
  induction cs generalizing line with
  | nil => simp
  | cons c cs ih =>
      obtain ⟨hc, hcs⟩ := by simpa only [List.mem_cons, not_or] using h
      rw [List.cons_append, linesFrom, if_neg (Ne.symm hc), ih hcs, List.append_assoc]
      rfl

/-- The characters may stand in a line. -/
def IsLine (line : String) : Prop := line ≠ "" ∧ ∀ c ∈ line.toList, c ≠ '\n' ∧ c ≠ '\r'

instance (line : String) : Decidable (IsLine line) := inferInstanceAs (Decidable (_ ∧ _))

theorem linesOf_intercalate {lines : List String} (h : ∀ line ∈ lines, IsLine line) :
    linesOf ("\n".intercalate lines) = lines := by
  have hend : ∀ line : String, IsLine line →
      '\n' ∉ line.toList ∧ dropReturn line.toList = line.toList := by
    refine fun line hline => ⟨fun hmem => (hline.2 _ hmem).1 rfl, if_neg fun hlast => ?_⟩
    exact (hline.2 _ (List.mem_of_getLast? hlast)).2 rfl
  have hall : linesFrom [] ("\n".intercalate lines).toList = lines.map String.toList := by
    induction lines with
    | nil => rfl
    | cons line rest ih =>
        obtain ⟨hline, hrest⟩ := List.forall_mem_cons.mp h
        obtain ⟨hnewline, hreturn⟩ := hend line hline
        cases rest with
        | nil =>
            have hfrom := @linesFrom_append [] line.toList [] hnewline
            simpa [linesFrom, hline.1] using hfrom
        | cons next rest =>
            have hsplit : ("\n".intercalate (line :: next :: rest)).toList =
                line.toList ++ '\n' :: ("\n".intercalate (next :: rest)).toList := by
              simp [String.intercalate_cons_cons]
            rw [hsplit, linesFrom_append hnewline, linesFrom, if_pos rfl, List.nil_append, hreturn,
              ih hrest]
            rfl
  rw [linesOf, hall, List.map_map]
  exact (List.map_congr_left fun line _ => String.ofList_toList).trans (List.map_id lines)

end Text

/-- A text given by lines that together close the brackets they open. -/
theorem Emit.isNested_intercalate {lines : List String} (hlines : ∀ line ∈ lines, IsLine line)
    (h : lines.foldlM Brackets.nest [] = some []) :
    (Emit.lines ("\n".intercalate lines)).IsNested :=
  isNested_lines (by rwa [linesOf_intercalate hlines])

namespace Program

variable {p : Program} {c : ClassDef}

theorem IsUnmarked.table (hp : p.IsUnmarked) (hc : c ∈ p.classes) {k : ConstDef}
    (hk : k ∈ c.constArrays) : k.IsUnmarked := hp.const c hc k (List.mem_append_right _ hk)

theorem IsUnmarked.ofMember (hp : p.IsUnmarked) (hc : c ∈ p.classes) {k : ConstDef}
    (hk : k ∈ c.consts) : k.IsUnmarked := hp.const c hc k (List.mem_append_left _ hk)

end Program

namespace CFamily

open Emit

variable {cx : Context} {d : Dialect} {c : ClassDef}

theorem nested_linkage (visibility : Visibility) : (linkage visibility).Nested := by
  unfold linkage
  split_ifs
  · exact .of_isFlat (by decide)
  · exact .nil

theorem nested_selfParameter (hname : Unmarked c.name) : (selfParameter c).Nested :=
  .of_isFlat (by simp +decide [selfParameter, Lexeme.isFlat_word hname])

theorem nested_constructorSignature (hname : Unmarked c.name) :
    (constructorSignature c).Nested := by
  have hhead : Code.Nested [.word "void", .gap, .word (constructName c.name)] :=
    .of_isFlat (by simp +decide [Lexeme.isFlat_word (unmarked_constructName hname)])
  exact ((nested_linkage _).append hhead).append (nested_selfParameter hname).parenthesized

theorem nested_signature (hp : cx.program.IsUnmarked) (hc : c ∈ cx.program.classes)
    {m : MethodDef} (hm : m ∈ c.methods) : Yields (signature cx d c m) Code.Nested := by
  obtain ⟨hname, hparams, -⟩ := hp.method c hc m hm
  have hclass := hp.className c hc
  refine (nested_typeCode hp _).bind fun returned hreturned => ?_
  refine (yields_mapM fun q hq =>
    nested_declaration hp q.ty (Context.isFlat_localWord (hparams q hq))).bind fun params hall => ?_
  have hself : ∀ piece ∈ (if m.isStatic then [] else [selfParameter c]), piece.Nested := by
    split_ifs
    · simp
    · simpa using nested_selfParameter hclass
  have hlist : Code.Nested (if ((if m.isStatic then [] else [selfParameter c]) ++ params).isEmpty
      then [.word "void"]
      else Code.commaSeparated ((if m.isStatic then [] else [selfParameter c]) ++ params)) := by
    generalize hpieces : (if m.isStatic then [] else [selfParameter c]) ++ params = pieces
    split_ifs
    · exact .of_isFlat (by decide)
    · exact .commaSeparated (hpieces ▸ List.forall_mem_append.mpr ⟨hself, hall⟩)
  exact yields_pure (Code.Nested.append ((nested_linkage _).append (nested_beforeName hreturned))
    (.flat (Lexeme.isFlat_word (hclass.functionName hname)) hlist.parenthesized))

theorem nested_selfField {f : FieldDef} (hname : Unmarked f.name) : (selfField cx f).Nested :=
  .of_isFlat (by simp +decide [selfField, Context.isFlat_localWord hname])

theorem isNested_fieldSetup (hp : cx.program.IsUnmarked) (hc : c ∈ cx.program.classes)
    {f : FieldDef} (hf : f ∈ c.fields) : (fieldSetup cx c f).IsNested := by
  obtain ⟨hname, hvalue⟩ := hp.field c hc f hf
  have hplace : (selfField cx f).Nested := nested_selfField hname
  unfold fieldSetup
  split
  case h_1 e _ hsome =>
    refine isNested_lift (Context.nested_code hp (hvalue e hsome)) fun code hcode =>
      isNested_line ?_
    exact ((hplace.append (.operator (by decide))).append hcode).append (.of_isFlat (by decide))
  case h_2 =>
    have hcalls := isNested_constructCalls hp 0 hplace f.ty
    split_ifs
    · exact (isNested_note _).seq hcalls
    · exact hcalls

theorem isNested_constructorBody (hp : cx.program.IsUnmarked) (hc : c ∈ cx.program.classes) :
    (constructorBody cx c).IsNested := by
  have hfields : (c.fields.forM (fieldSetup cx c)).IsNested :=
    isNested_forM fun f hf => isNested_fieldSetup hp hc hf
  have hstmts : (cx.statements (c.constructor?.getD [])).IsNested :=
    Context.isNested_block hp (hp.constructor c hc)
  exact isNested_newline.seq ((isNested_line (nested_constructorSignature (hp.className c hc))).seq
    (hfields.seq hstmts).braced)

theorem isNested_methodBody (hp : cx.program.IsUnmarked) (hc : c ∈ cx.program.classes)
    {m : MethodDef} (hm : m ∈ c.methods) : (methodBody cx d c m).IsNested :=
  (isNested_note _).seq (isNested_newline.seq (isNested_lift (nested_signature hp hc hm)
    fun _ hcode => (isNested_line hcode).seq (Context.isNested_body hp (hp.method c hc m hm).2.2)))

/-- Lines inside braces of which the closing one is followed by a semicolon. -/
theorem isNested_bracedList {head : Code} {inside : Emit Unit} (hhead : head.Nested)
    (h : inside.IsNested) : IsNested (do
      Emit.line (head ++ [Lexeme.symbol "\x7b"])
      inside.deeper
      Emit.line [.symbol "\x7d", .symbol ";"]) := fun awaited =>
  (takes_line (by simp [hhead.nest_append]) : (Emit.line _).Takes awaited ('\x7d' :: awaited)).bind
    fun _ => (h _).deeper.bind fun _ => takes_line rfl

theorem isNested_enumeration {e : EnumDef} (hname : Unmarked e.name)
    (hvalues : ∀ value ∈ e.values, Unmarked value.name) : (enumeration cx e).IsNested := by
  unfold enumeration
  split_ifs
  · exact isNested_note _
  · have hhead : Code.Nested [.word "enum", .gap] := .of_isFlat (by decide)
    refine (isNested_note _).seq (isNested_newline.seq (isNested_bracedList hhead
      (isNested_forM fun (value, i) hentry => isNested_line (.of_isFlat ?_))))
    have hvalue := hvalues value (List.fst_mem_of_mem_zipIdx hentry)
    have hword := Lexeme.isFlat_word
      ((hname.append (by decide : Unmarked "_")).append hvalue.upperSnakeCase)
    split_ifs <;> simp +decide [hword, Code.operator]

theorem isNested_macroLine (hp : cx.program.IsUnmarked) (hc : c ∈ cx.program.classes)
    {k : ConstDef} (hk : k ∈ c.consts) : (macroLine cx c k).IsNested := by
  have hname : Unmarked (constName c k.emittedName) :=
    (hp.className c hc).constName (hp.ofMember hc hk).emittedName
  refine isNested_lift (Context.nested_constValue hp k.value) fun value hvalue =>
    isNested_line (Code.Nested.append (.of_isFlat ?_) ?_)
  · simp +decide [Lexeme.isFlat_word hname]
  · split_ifs
    · exact hvalue.parenthesized
    · exact hvalue

theorem isNested_typedefLine (hname : Unmarked c.name) : (typedefLine c).IsNested :=
  isNested_line (.of_isFlat (by simp +decide [Lexeme.isFlat_word hname]))

theorem isNested_structLayout (hp : cx.program.IsUnmarked) (hc : c ∈ cx.program.classes) :
    (structLayout cx d c).IsNested := by
  have hhead : Code.Nested [.word "struct", .gap, .word c.name, .gap] :=
    .of_isFlat (by simp +decide [Lexeme.isFlat_word (hp.className c hc)])
  have hfields : IsNested (c.fields.forM fun f => do
      Emit.line ((← (declaration cx d f.ty (cx.localWord f.name) : Result Code)) ++
        [Lexeme.symbol ";"])) :=
    isNested_forM fun f hf => isNested_lift
      (nested_declaration hp f.ty (Context.isFlat_localWord (hp.field c hc f hf).1))
      fun _ hcode => isNested_line (hcode.append (.of_isFlat (by decide)))
  have hunused : IsNested (if c.fields.isEmpty then
      Emit.line [.word "char", .gap, .word "unused", .symbol ";"] else pure ()) := by
    split_ifs
    · exact isNested_line (.of_isFlat (by decide))
    · exact isNested_pure ()
  exact (isNested_note _).seq
    (isNested_newline.seq (isNested_bracedList hhead (hfields.seq hunused)))

theorem isFlat_byteLexeme (b : UInt8) : (byteLexeme b).isFlat = true := by
  have hdigit : ∀ n < 16, Unmarked (String.ofList [Nat.digitChar n]) := by decide
  have hpair : String.ofList [Nat.digitChar (b.toNat / 16), Nat.digitChar (b.toNat % 16)] =
      String.ofList [Nat.digitChar (b.toNat / 16)] ++
        String.ofList [Nat.digitChar (b.toNat % 16)] :=
    String.toList_inj.mp (by simp)
  have hlt := b.toNat_lt
  have hbyte := (hdigit (b.toNat / 16) (by omega)).append (hdigit (b.toNat % 16) (by omega))
  rw [← hpair] at hbyte
  exact decide_eq_true ((by decide : Unmarked "0x").append hbyte)

theorem isNested_byteLines (rows : List (List UInt8)) : (byteLines rows).IsNested := by
  have hrow : ∀ row : List UInt8,
      (Code.commaSeparated (row.map fun b => [byteLexeme b])).Nested := fun row =>
    .commaSeparated (by simpa using fun b _ => Code.Nested.flat (isFlat_byteLexeme b) .nil)
  induction rows with
  | nil => exact isNested_pure ()
  | cons row rest ih =>
      cases rest with
      | nil => exact isNested_line (hrow row)
      | cons next rest =>
          exact (isNested_line ((hrow row).append (.of_isFlat (by decide)))).seq ih

theorem nested_tableStorage (d : Dialect) : d.tableStorage.Nested := by
  cases d <;> exact .of_isFlat (by decide)

theorem isNested_resourceTable (name : String) (bytes : List UInt8) :
    (resourceTable d name bytes).IsNested := by
  have hname : (Lexeme.word (resourceName name)).isFlat = true :=
    Lexeme.isFlat_word (unmarked_resourceName name)
  have hhead : Code.Nested (d.tableStorage ++ [d.readOnly, .gap, .word "unsigned", .gap,
      .word "char", .gap, .word (resourceName name), .symbol "[", .symbol "]"] ++
        Code.operator "=") := fun awaited => by
    rw [List.append_assoc, (nested_tableStorage d).nest_append]
    simp +decide [isFlat_readOnly, hname, Code.operator]
  exact isNested_newline.seq (isNested_bracedList hhead (isNested_byteLines _))

theorem nested_constTable (hp : cx.program.IsUnmarked) (hc : c ∈ cx.program.classes)
    {k : ConstDef} (hk : k ∈ c.constArrays) : Yields (constTable cx d c k) Code.Nested := by
  have hname : (Lexeme.word (constName c k.emittedName)).isFlat = true :=
    Lexeme.isFlat_word ((hp.className c hc).constName (hp.table hc hk).emittedName)
  unfold constTable
  split
  · refine (nested_typeCode hp _).bind fun type htype => ?_
    refine (Context.nested_constValue hp k.value).bind fun value hvalue =>
      yields_pure fun awaited => ?_
    have hqualified : Code.Nested (if type.endsInStar then type ++ [d.readOnly, .gap]
        else d.readOnly :: .gap :: type ++ [Lexeme.gap]) := by
      have hgap : Code.Nested [.gap] := .of_isFlat (by decide)
      split_ifs
      · exact htype.append (.flat (isFlat_readOnly d) hgap)
      · exact Code.Nested.append (.flat (isFlat_readOnly d) (.flat rfl htype)) hgap
    simp only [List.append_assoc, (nested_tableStorage d).nest_append, hqualified.nest_append]
    simp +decide [hname, hvalue.nest_append, Code.operator]
  · exact yields_error _

section Items

variable {item : Item}

theorem native_of_mem {text : String} (h : .native text ∈ items cx d) :
    text ∈ cx.program.natives := by
  cases d <;> simpa [items, headerItems, declarationItems, helperItems, bodyItems] using h

theorem enumeration_of_mem {e : EnumDef} (h : .enumeration e ∈ items cx d) :
    e ∈ cx.program.enums := by
  have hshown : e ∈ cx.program.shownEnums := by
    cases d <;> simpa [items, headerItems, declarationItems, helperItems, bodyItems] using h
  obtain ⟨id, -, he⟩ := List.mem_filterMap.mp hshown
  exact List.mem_of_getElem? he

theorem helper_of_mem {helper : Helper} {text : String} (h : .helper helper text ∈ items cx d) :
    text ∈ [streqText, strlenText] := by
  cases d with
  | standard => simp [items, headerItems, declarationItems, helperItems, bodyItems] at h
  | openCL =>
      simp [items, headerItems, declarationItems, helperItems, bodyItems] at h
      simp
      tauto

theorem isNested_helperText : ∀ text ∈ [streqText, strlenText], (Emit.lines text).IsNested := by
  refine List.forall_mem_cons.mpr ⟨?_, List.forall_mem_singleton.mpr ?_⟩
  · exact isNested_intercalate (by decide) (by decide)
  · exact isNested_intercalate (by decide) (by decide)

theorem isNested_item (hp : cx.program.IsUnmarked) (hitem : item ∈ items cx d)
    (hof : item.Of cx.program) : (item.emission cx d).IsNested := by
  have hclass : ∀ {id : ClassId} {c : ClassDef}, cx.program.classOf id = .ok c →
      c ∈ cx.program.classes := mem_classes_of_classOf
  cases item with
  | header h => exact isNested_line (.of_isFlat (by cases h <;> decide))
  | native text =>
      exact isNested_newline.seq
        (isNested_lines_of_unmarked (hp.native text (native_of_mem hitem)))
  | enumeration e =>
      obtain ⟨hname, hvalues⟩ := hp.enum e (enumeration_of_mem hitem)
      exact isNested_enumeration hname hvalues
  | definition c k => exact isNested_macroLine hp hof.1 hof.2
  | typedef id c => exact isNested_typedefLine (hp.className c (hclass hof))
  | constructorPrototype id c =>
      exact isNested_line ((nested_constructorSignature (hp.className c (hclass hof))).append
        (.of_isFlat (by decide)))
  | prototype id c m =>
      exact isNested_lift (nested_signature hp (hclass hof.1) hof.2) fun _ hcode =>
        isNested_line (hcode.append (.of_isFlat (by decide)))
  | layout id c => exact isNested_structLayout hp (hclass hof)
  | resource name bytes => exact isNested_resourceTable name bytes
  | table c k =>
      exact isNested_lift (nested_constTable hp hof.1 hof.2) fun _ hcode => isNested_line hcode
  | helper helper text =>
      exact isNested_newline.seq (isNested_helperText text (helper_of_mem hitem))
  | constructor id c => exact isNested_constructorBody hp (hclass hof)
  | method id c m => exact isNested_methodBody hp (hclass hof.1) hof.2

/-- The text of an item that is printed closes the brackets it opens. -/
theorem neutral_item (ht : cx.target = .cFamily d) (hp : cx.program.IsUnmarked)
    (hitem : item ∈ items cx d) (hof : item.Of cx.program)
    (hok : (item.emission cx d).outcome = .ok ()) : Neutral (item.text cx d) := by
  obtain ⟨hstay, hprints⟩ := printsText_item ht hof hok
  exact (Emit.neutral_text hstay hok hprints (isNested_item hp hitem hof)).trimmed

end Items

theorem neutral_files {p : Program} {o : Options} {files : List OutputFile}
    (h : (generate (Target.cFamily d).name p o).files = .ok files) (hp : p.IsUnmarked) :
    ∀ file ∈ files, Neutral file.contents := by
  obtain ⟨contents, rfl, hspread, hitems⟩ := generate_eq_ok h
  refine List.forall_mem_singleton.mpr (hspread.neutral fun text htext => ?_)
  obtain ⟨item, hitem, rfl⟩ := List.mem_map.mp htext
  obtain ⟨hof, hok⟩ := hitems item hitem
  exact neutral_item rfl hp hitem hof hok

end CFamily

/-! The file of an ActionScript class puts the package and the class around what the class contains,
so it is enough that the content is nested. -/

namespace ActionScript

open Emit

variable {cx : Context} {place : Placement} {c : ClassDef}

theorem isFlat_visibilityWord (visibility : Visibility) :
    (visibilityWord visibility).isFlat = true := by
  cases visibility <;> decide

theorem nested_constHead (visibility : Visibility) {name : String} (hname : Unmarked name) :
    (constHead visibility name).Nested := .of_isFlat (by
  simp +decide [constHead, isFlat_visibilityWord, Lexeme.isFlat_word hname.upperSnakeCase])

theorem isNested_enumeratorLines {e : EnumDef} (hvalues : ∀ value ∈ e.values, Unmarked value.name) :
    (enumeratorLines e).IsNested :=
  isNested_forM fun entry hentry => isNested_line (by
    simp only [List.append_assoc]
    exact (nested_constHead _ (hvalues entry.1 (List.fst_mem_of_mem_zipIdx hentry))).append
      (.of_isFlat (by simp +decide [Code.operator])))

/-- The declaration of a constant. -/
theorem nested_declaration (visibility : Visibility) {name : String} (hname : Unmarked name)
    {type value : Code} (htype : type.Nested) (hvalue : value.Nested) :
    Code.Nested (constHead visibility name ++ Code.operator ":" ++ type ++ Code.operator "=" ++
      value ++ ([.symbol ";"] : Code)) :=
  (((((nested_constHead visibility hname).append (.operator (by decide))).append htype).append
    (.operator (by decide))).append hvalue).append (.of_isFlat (by decide))

theorem isNested_constLine (hp : cx.program.IsUnmarked) {k : ConstDef} (hk : k.IsUnmarked) :
    (constLine cx k).IsNested := by
  unfold constLine
  split_ifs
  · exact isNested_lift (nested_typeCode hp _) fun _ htype =>
      isNested_lift (Context.nested_constValue hp k.value) fun _ hvalue =>
        isNested_line (nested_declaration _ hk.emittedName htype hvalue)
  · exact isNested_pure ()

theorem isNested_tableLine (hp : cx.program.IsUnmarked) {k : ConstDef} (hk : k.IsUnmarked) :
    (tableLine cx k).IsNested :=
  isNested_lift (Context.nested_constValue hp k.value) fun _ hvalue =>
    isNested_line (nested_declaration _ hk.emittedName (.of_isFlat (by decide)) hvalue)

theorem isNested_memberLines (hp : cx.program.IsUnmarked) (hc : c ∈ cx.program.classes) {m : Member}
    (hm : m ∈ c.members) : (memberLines cx m).IsNested := by
  cases m with
  | field f =>
      obtain ⟨hname, hvalue⟩ := hp.field c hc f (List.mem_filterMap.mpr ⟨_, hm, rfl⟩)
      refine isNested_lift (nested_typed hp hname _) fun type htype => ?_
      have hhead : Code.Nested [visibilityWord f.visibility, .gap,
          .word (if f.ty.isStorage then "const" else "var"), .gap] :=
        .of_isFlat (by split <;> simp +decide [isFlat_visibilityWord])
      exact (isNested_put (hhead.append htype)).seq
        ((isNested_initializer hp _ _ hvalue).seq (isNested_line (.of_isFlat (by decide))))
  | const k =>
      exact isNested_constLine hp (hp.ofMember hc (List.mem_filterMap.mpr ⟨_, hm, rfl⟩))
  | method m =>
      obtain ⟨hname, hparams, hbody⟩ := hp.method c hc m (List.mem_filterMap.mpr ⟨_, hm, rfl⟩)
      refine isNested_newline.seq (isNested_lift
        (yields_mapM fun q hq => nested_typed hp (hparams q hq) q.ty) fun params hall =>
          isNested_lift (nested_typeCode hp _) fun returned hreturned =>
            (isNested_line ?_).seq (Context.isNested_body hp hbody))
      have hhead : Code.Nested ([visibilityWord m.visibility, .gap] ++
          (if m.isStatic then [Lexeme.word "static", Lexeme.gap] else []) ++
          [.word "function", .gap, cx.localWord m.name]) := .of_isFlat (by
        split_ifs <;> simp +decide [isFlat_visibilityWord, Context.isFlat_localWord hname])
      exact ((hhead.append (Code.Nested.commaSeparated hall).parenthesized).append
        (.operator (by decide))).append hreturned

theorem isNested_constructorLines (hp : cx.program.IsUnmarked) (hc : c ∈ cx.program.classes)
    {stmts : Block} (hstmts : ∀ s ∈ stmts, s.isUnmarked = true) :
    (constructorLines cx c stmts).IsNested := by
  have hname := Lexeme.isFlat_word (hp.className c hc)
  have hhead : (Code.Nested [.word "public", .gap, .word "function", .gap, .word c.name,
      .symbol "(", .symbol ")"]) := fun awaited => by simp +decide [hname]
  exact isNested_newline.seq ((isNested_line hhead).seq (Context.isNested_body hp hstmts))

theorem isNested_contentLines (hp : cx.program.IsUnmarked) (hc : c ∈ cx.program.classes) :
    (contentLines cx c).IsNested := by
  have hmembers : (c.members.forM (memberLines cx)).IsNested :=
    isNested_forM fun m hm => isNested_memberLines hp hc hm
  have htables : (c.constArrays.forM (tableLine cx)).IsNested :=
    isNested_forM fun k hk => isNested_tableLine hp (hp.table hc hk)
  refine hmembers.seq ?_
  cases hconstructor : c.constructor? with
  | none => exact htables
  | some stmts =>
      exact (isNested_constructorLines hp hc fun s hs =>
        hp.constructor c hc s (by simpa [hconstructor] using hs)).seq htables

theorem isNested_separatedLines {texts : List String}
    (h : ∀ text ∈ texts, (Emit.lines text).IsNested) : (separatedLines texts).IsNested := by
  induction texts with
  | nil => exact isNested_pure ()
  | cons text rest ih =>
      obtain ⟨htext, hrest⟩ := List.forall_mem_cons.mp h
      cases rest with
      | nil => exact htext
      | cons next rest => exact htext.seq (isNested_newline.seq (ih hrest))

theorem isNested_helperTexts : ∀ entry ∈ helperTexts, (Emit.lines entry.2).IsNested := by
  simp only [helperTexts, List.forall_mem_cons, List.not_mem_nil, false_implies, implies_true,
    and_true]
  refine ⟨?_, ?_, ?_, ?_, ?_⟩ <;> exact isNested_intercalate (by decide) (by decide)

theorem isNested_classLines (hpackage : ∀ name ∈ place.package, Unmarked name) {name : String}
    (hname : Unmarked name) (visibility : Visibility) {inside : Emit Unit}
    (h : inside.IsNested) : (classLines place name visibility inside).IsNested := by
  have himport : Code.Nested [.word "import", .gap, .word "flash", .symbol ".", .word "utils",
      .symbol ".", .word "ByteArray", .symbol ";"] := .of_isFlat (by decide)
  have hclass : Code.Nested [visibilityWord visibility, .gap, .word "class", .gap, .word name] :=
    .of_isFlat (by simp +decide [isFlat_visibilityWord, Lexeme.isFlat_word hname])
  refine Emit.IsNested.seq (isNested_line ?_) ((isNested_line himport).seq (isNested_newline.seq
    ((isNested_line hclass).seq h.braced))).braced
  cases hplace : place.package with
  | none => exact .of_isFlat (by decide)
  | some package =>
      exact .of_isFlat (by simp +decide [Lexeme.isFlat_word (hpackage package hplace)])

/-- The file of a class whose inside closes the brackets it opens. -/
theorem neutral_classLines (ht : cx.target = .actionScript)
    (hpackage : ∀ name ∈ place.package, Unmarked name) {name : String} (hname : Unmarked name)
    (visibility : Visibility) {inside : Emit Unit} {names : List PrintedName}
    (hok : inside.outcome = .ok ()) (hplays : inside.Plays) (hprints : inside.Prints cx names)
    (h : inside.IsNested) : Neutral (classLines place name visibility inside).text := by
  have hok : (classLines place name visibility inside).outcome = .ok () :=
    (outcome_classLines ..).trans hok
  have hstay := (prints_classLines ht hprints (classLines place name visibility inside).steps ()
    (by rw [← hok])).1
  have htext := printsText_text hok (plays_classLines hplays) hstay
    (ends_bind fun _ => ends_braced _).keeps
  exact Emit.neutral_text hstay hok htext (isNested_classLines hpackage hname visibility h)

theorem outcome_enumeratorLines (e : EnumDef) : (enumeratorLines e).outcome = .ok () := by
  unfold enumeratorLines
  rw [Emit.forM_line]
  rfl

theorem neutral_files {p : Program} {o : Options} {files : List OutputFile}
    (h : (generate "as" p o).files = .ok files) (hp : p.IsUnmarked)
    (hpackage : ∀ name ∈ o.package, Unmarked name) : ∀ file ∈ files, Neutral file.contents := by
  let cx : Context := ⟨p, .actionScript, none⟩
  have ht : cx.target = .actionScript := rfl
  have hall : ∀ unit ∈ units cx ⟨o.output, o.package⟩, Neutral unit.2 := by
    intro unit hunit
    rcases List.mem_append.mp hunit with hsymbol | hhelper
    · obtain ⟨id, hid, hunit⟩ := List.mem_filterMap.mp hsymbol
      cases id with
      | enumeration id =>
          obtain ⟨e, he, rfl⟩ := Option.map_eq_some_iff.mp hunit
          obtain ⟨hname, hvalues⟩ := hp.enum e (List.mem_of_getElem? he)
          exact neutral_classLines ht hpackage hname _ (outcome_enumeratorLines e)
            (plays_forM fun _ _ => plays_line _) (prints_enumeratorLines ht e)
            (isNested_enumeratorLines hvalues)
      | classDef id =>
          obtain ⟨c, hc, rfl⟩ := Option.map_eq_some_iff.mp hunit
          have hmem := List.mem_of_getElem? hc
          have hinside : Context.target ⟨p, .actionScript, some id⟩ = .actionScript := rfl
          exact neutral_classLines hinside hpackage (hp.className c hmem) _
            (outcome_contentLines h hid (classOf_eq_ok_iff.mpr hc)) (plays_contentLines c)
            (prints_contentLines hinside c) (isNested_contentLines hp hmem)
    · have hlines : ∀ text ∈ (neededHelpers cx).map Prod.snd, (Emit.lines text).IsNested := by
        intro text htext
        obtain ⟨entry, hentry, rfl⟩ := List.mem_map.mp htext
        exact isNested_helperTexts entry (List.mem_of_mem_filter hentry)
      split_ifs at hhelper
      · cases hhelper
      · obtain rfl := List.mem_singleton.mp hhelper
        dsimp only
        rw [← text_helperClass ⟨o.output, o.package⟩]
        have hok := (@addsLines_separatedLines 0 ((neededHelpers cx).map Prod.snd)).outcome
        exact neutral_classLines ht hpackage (by decide) _ hok (plays_separatedLines _)
          (prints_separatedLines _) (isNested_separatedLines hlines)
  rw [generate_eq_ok h]
  intro file hfile
  obtain ⟨unit, hunit, rfl⟩ := List.mem_map.mp hfile
  exact hall unit hunit

end ActionScript

/-- Where no name, no target code and no package name has brackets or quotes in it, the brackets
outside the literals of every file are properly nested, and every literal ends on its line. -/
theorem wellNested_files (t : Target) {p : Program} {o : Options} {files : List OutputFile}
    (hrun : (generate t.name p o).files = .ok files) (hp : p.IsUnmarked)
    (hpackage : ∀ name ∈ o.package, Unmarked name) : ∀ file ∈ files, WellNested file.contents := by
  intro file hfile
  cases t with
  | actionScript => exact (ActionScript.neutral_files hrun hp hpackage file hfile).wellNested
  | cFamily d => exact (CFamily.neutral_files hrun hp file hfile).wellNested

/-- A class in whose texts brackets and quotes stand open. -/
def riddleProgram : Program :=
  ⟨[], [⟨"Riddle", .exported, none, none,
    [.const ⟨"Hint", .exported, none, .string, .str "\x7d\"(\x27\\", none⟩,
      .method ⟨"Ask", .exported, none, true, [⟨"prompt", .string, none⟩], .string,
        [.returnValue (some (.literal (.str "[\"\n\x7b") .string))]⟩], []⟩],
    [.classDef ⟨0⟩], [], .empty⟩

theorem isUnmarked_riddleProgram : riddleProgram.IsUnmarked where
  native := by decide
  enum := by decide
  className := by decide
  field := by decide
  const := by simp [riddleProgram, ClassDef.consts, ConstDef.IsUnmarked]; decide
  constructor := by decide
  method := by decide

theorem wellNested_files_riddle :
    ∃ files, (generate Target.actionScript.name riddleProgram ⟨⟨"out"⟩, some "game.text"⟩).files =
        .ok files ∧ files.length = 1 ∧ riddleProgram.IsUnmarked ∧ Unmarked "game.text" ∧
      ∀ file ∈ files, WellNested file.contents := by
  have hrun : (generate Target.actionScript.name riddleProgram
      ⟨⟨"out"⟩, some "game.text"⟩).files.toOption.map List.length = some 1 := by decide +kernel
  have hpackage : Unmarked "game.text" := by decide
  rcases h : (generate Target.actionScript.name riddleProgram
    ⟨⟨"out"⟩, some "game.text"⟩).files with fault | files
  · rw [h] at hrun
    cases hrun
  · rw [h] at hrun
    exact ⟨files, rfl, Option.some.inj hrun, isUnmarked_riddleProgram, hpackage,
      wellNested_files .actionScript h isUnmarked_riddleProgram (by simpa using hpackage)⟩

end Emitter
