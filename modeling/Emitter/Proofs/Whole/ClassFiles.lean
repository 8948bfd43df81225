import Emitter.Proofs.Whole.Lines

/-!
# The files of ActionScript classes

Every top-level symbol is printed into a file of its own, with one class in it. What a class
contains keeps to the file, so a run that goes through hands out the files one after the other, and
the names in them are those in the classes.
-/

namespace Emitter

open Layout Program Text

namespace Emit

variable {α β : Type} {cx : Context} {names names' : List PrintedName} {e : Emit Unit}
  {written written' : List OutputFile}

/-- An emission that goes through can be carried out wherever nothing is open. It writes the files
and ends where nothing is open, and its code has the listed names. -/
def Writes (cx : Context) (names : List PrintedName) (written : List OutputFile) (e : Emit α) :
    Prop :=
  ∀ steps a, e = ⟨steps, .ok a⟩ → cx.Lists names (Step.names steps) ∧
    ∀ d : Desk, d.Free → ∃ d', d.play? steps = some d' ∧ d'.Free ∧
      d'.writer.files = d.writer.files ++ written

theorem writes_pure (a : α) : (pure a : Emit α).Writes cx [] [] := fun steps b h => by
  obtain ⟨-, rfl⟩ := pure_eq_ok.mp h
  exact ⟨Context.Lists.nil, fun d hd => ⟨d, rfl, hd, by simp⟩⟩

theorem writes_note (notice : Notice) : (note notice).Writes cx [] [] := fun steps _ h => by
  obtain rfl := ofSteps_eq_ok.mp h
  exact ⟨Context.Lists.nil, fun d hd => ⟨_, rfl, hd, by simp⟩⟩

theorem Writes.bind {e : Emit α} {next : α → Emit β} (h : e.Writes cx names written)
    (hnext : ∀ a, (next a).Writes cx names' written') :
    (e >>= next).Writes cx (names ++ names') (written ++ written') := by
  intro steps b hsteps
  obtain ⟨a, first, rest, hfirst, hrest, rfl⟩ := bind_eq_ok.mp hsteps
  obtain ⟨hlists, hplays⟩ := h first a hfirst
  obtain ⟨hlists', hplays'⟩ := hnext a rest b hrest
  refine ⟨by simpa using hlists.append hlists', fun d hd => ?_⟩
  obtain ⟨d', hplay, hd', hfiles⟩ := hplays d hd
  obtain ⟨d'', hplay', hd'', hfiles'⟩ := hplays' d' hd'
  exact ⟨d'', by simp [Desk.play?_append, hplay, hplay'], hd'', by simp [hfiles, hfiles']⟩

theorem Writes.seq {next : Emit α} (h : e.Writes cx names written)
    (hnext : next.Writes cx names' written') :
    (do e; next).Writes cx (names ++ names') (written ++ written') := h.bind fun _ => hnext

theorem writes_lift {r : Result α} {next : α → Emit β}
    (h : ∀ a, r = .ok a → (next a).Writes cx names written) :
    (liftM r >>= next).Writes cx names written := by
  intro steps b hsteps
  obtain ⟨a, hr, hnext⟩ := liftM_bind_eq_ok.mp hsteps
  exact h a hr steps b hnext

theorem writes_forM {f : α → Emit Unit} {g : α → List PrintedName} {file : α → List OutputFile}
    {items : List α} (h : ∀ item ∈ items, (f item).Writes cx (g item) (file item)) :
    (items.forM f).Writes cx (items.flatMap g) (items.flatMap file) := by
  induction items with
  | nil => exact writes_pure ()
  | cons item rest ih =>
      obtain ⟨hitem, hrest⟩ := List.forall_mem_cons.mp h
      exact hitem.seq (ih hrest)

theorem Writes.of_eq {e : Emit α} (h : e.Writes cx names written) (hnames : names = names')
    (hwritten : written = written') : e.Writes cx names' written' := hnames ▸ hwritten ▸ h

end Emit

namespace ActionScript

open Emit

variable {cx : Context} {place : Placement}

/-- What stands in a file with one class. -/
def classLines (place : Placement) (name : String) (visibility : Visibility) (inside : Emit Unit) :
    Emit Unit := do
  Emit.line <|
    match place.package with
    | some package => [.word "package", .gap, .word package]
    | none => [.word "package"]
  Emit.braced do
    Emit.line [.word "import", .gap, .word "flash", .symbol ".", .word "utils", .symbol ".",
      .word "ByteArray", .symbol ";"]
    Emit.newline
    Emit.line [visibilityWord visibility, .gap, .word "class", .gap, .word name]
    inside.braced

/-- The file of a class, given its name and what stands in it. -/
def Placement.file (place : Placement) (unit : String × String) : OutputFile :=
  ⟨place.directory.join ⟨unit.1 ++ ".as"⟩, unit.2⟩

theorem classFile_eq (place : Placement) (name : String) (visibility : Visibility)
    (inside : Emit Unit) : classFile place name visibility inside = (do
      Emit.ofSteps [.openFile (place.directory.join ⟨name ++ ".as"⟩)]
      classLines place name visibility inside
      Emit.ofSteps [.closeFile]) := by
  obtain ⟨directory, package⟩ := place
  cases package <;> simp only [classFile, classLines, LawfulMonad.bind_assoc]

theorem plays_classLines {name : String} {visibility : Visibility} {inside : Emit Unit}
    (h : inside.Plays) : (classLines place name visibility inside).Plays :=
  (plays_line _).seq (Plays.braced ((plays_line _).seq (plays_newline.seq
    ((plays_line _).seq h.braced))))

theorem prints_line_of_words (ht : cx.target = .actionScript) {code : Code} (h : Plain code) :
    (Emit.line code).Prints cx [] := prints_line (Context.lists_of_plain ht h)

theorem plain_visibilityWord (visibility : Visibility) {code : Code} (h : Plain code) :
    Plain (visibilityWord visibility :: code) := by
  cases visibility <;> simpa [Plain, visibilityWord] using h

theorem prints_classLines (ht : cx.target = .actionScript) {name : String}
    {visibility : Visibility} {inside : Emit Unit} {names : List PrintedName}
    (h : inside.Prints cx names) : (classLines place name visibility inside).Prints cx names := by
  have hpackage : Plain (match place.package with
      | some package => [.word "package", .gap, .word package]
      | none => [.word "package"]) := by
    cases place.package <;> simp [Plain]
  have himport : Plain [.word "import", .gap, .word "flash", .symbol ".", .word "utils",
      .symbol ".", .word "ByteArray", .symbol ";"] := by simp [Plain]
  exact (prints_line_of_words ht hpackage).seq (Prints.braced
    ((prints_line_of_words ht himport).seq (prints_newline.seq
      ((prints_line_of_words ht (plain_visibilityWord visibility (by simp [Plain]))).seq
        h.braced))))

/-- The file of a class holds what its lines print on an empty page. -/
theorem writes_classFile (ht : cx.target = .actionScript) (place : Placement) (name : String)
    (visibility : Visibility) {inside : Emit Unit} {names : List PrintedName}
    (hplays : inside.Plays) (hprints : inside.Prints cx names) :
    (classFile place name visibility inside).Writes cx names
      [place.file (name, (classLines place name visibility inside).text)] := by
  rw [classFile_eq]
  intro steps a hsteps
  obtain ⟨_, hrest, rfl⟩ := ofSteps_bind_eq_ok.mp hsteps
  obtain ⟨⟨⟩, inner, last, hinner, hlast, rfl⟩ := bind_eq_ok.mp hrest
  obtain rfl := ofSteps_eq_ok.mp hlast
  have hok : (classLines place name visibility inside).outcome = .ok () := by rw [hinner]
  obtain ⟨hstay, hlists⟩ := prints_classLines ht hprints inner () hinner
  have htext := printsText_text hok (plays_classLines hplays) (by rw [hinner]; exact hstay)
    (ends_bind fun _ => ends_braced _).keeps
  refine ⟨by simpa [Step.names, Step.code] using hlists, fun d hd => ?_⟩
  let path := place.directory.join ⟨name ++ ".as"⟩
  let opened : Writer := { d.writer with
    out := "", indent := 0, atLineStart := true, currentFile := some path }
  obtain ⟨notices, hplay⟩ := htext.plays opened d.notices ⟨rfl, rfl⟩
  rw [show (classLines place name visibility inside).steps = inner by rw [hinner]] at hplay
  have hopen : d.step? (.openFile path) = some ⟨opened, d.notices⟩ := by
    simp [Desk.step?, Writer.createFile?, hd.currentFile, opened]
  have hclose : ∃ closed : Desk, (Desk.mk (opened.further
      (classLines place name visibility inside).text 0 true) notices).step? .closeFile =
        some closed ∧ closed.Free ∧ closed.writer.files = d.writer.files ++
          [place.file (name, (classLines place name visibility inside).text)] := by
    refine ⟨_, rfl, ⟨rfl, rfl, hd.suspended, rfl⟩, ?_⟩
    simp [opened, Writer.further, Placement.file, path]
  obtain ⟨closed, hclosed, hfree, hfiles⟩ := hclose
  refine ⟨closed, ?_, hfree, hfiles⟩
  change d.play? ([Step.openFile path] ++ (inner ++ [Step.closeFile])) = some closed
  rw [Desk.play?_append, Desk.play?_singleton, hopen, Option.bind_some, Desk.play?_append, hplay,
    Option.bind_some, Desk.play?_singleton, hclosed]

/-- The lines of an enumeration's class. -/
def enumeratorLines (e : EnumDef) : Emit Unit :=
  e.values.zipIdx.forM fun (value, i) =>
    Emit.line (constHead .exported value.name ++ Code.operator ":" ++ [.word "int"] ++
      Code.operator "=" ++ [.number (toString i), .symbol ";"])

/-- The lines of a class: its members, its constructor and its tables. -/
def contentLines (cx : Context) (c : ClassDef) : Emit Unit := do
  c.members.forM (memberLines cx)
  match c.constructor? with
  | some stmts => constructorLines cx c stmts
  | none => pure ()
  c.constArrays.forM (tableLine cx)

theorem classDef_eq (id : ClassId) : classDef cx place id = (do
    let c ← (cx.classOf id : Result ClassDef)
    Emit.note (.classFile c.name)
    classFile place c.name c.visibility (contentLines { cx with current := some id } c)) := rfl

/-- The names that a member is printed with. A constant is printed as its value. -/
def memberNames (cx : Context) : Member → List PrintedName
  | .field f => if f.ty.isStorage then [] else cx.receiverNames f.value
  | .const _ => []
  | .method m => cx.blockNames m.body

def contentNames (cx : Context) (c : ClassDef) : List PrintedName :=
  c.members.flatMap (memberNames cx) ++ cx.blockNames (c.constructor?.getD [])

theorem plain_constHead (visibility : Visibility) (name : String) {code : Code} (h : Plain code) :
    Plain (constHead visibility name ++ code) := by
  cases visibility <;> simpa [Plain, constHead, visibilityWord] using h

theorem prints_enumeratorLines (ht : cx.target = .actionScript) (e : EnumDef) :
    (enumeratorLines e).Prints cx [] :=
  prints_forM_of_plain fun entry _ => prints_line_of_words ht (by
    simp only [List.append_assoc]
    exact plain_constHead _ _ (by simp [Plain]))

theorem plain_commaSeparated {pieces : List Code} (h : ∀ piece ∈ pieces, Plain piece) :
    Plain (Code.commaSeparated pieces) := by
  simpa [Plain] using fun name supplier piece hpiece => h piece hpiece name supplier

theorem plain_params {params : List Param} {pieces : List Code}
    (hc : params.mapM (fun p => typed cx p.name p.ty) = .ok pieces) :
    ∀ piece ∈ pieces, Plain piece := by
  have hall := Result.forall₂_of_mapM_eq_ok hc
  clear hc
  induction hall with
  | nil => simp
  | cons hfirst _ ih => exact List.forall_mem_cons.mpr ⟨plain_typed hfirst, ih⟩

theorem prints_memberLines (ht : cx.target = .actionScript) (m : Member) :
    (memberLines cx m).Prints cx (memberNames cx m) := by
  cases m with
  | field f =>
      refine prints_lift fun type htype => ?_
      have hhead : (Emit.put ([visibilityWord f.visibility, .gap,
          .word (if f.ty.isStorage then "const" else "var"), .gap] ++ type)).Prints cx [] :=
        prints_put (Context.lists_of_plain ht
          (plain_visibilityWord _ (by simpa [Plain] using plain_typed htype)))
      have hend : (Emit.line [.symbol ";"]).Prints cx [] := prints_line_of_plain rfl
      have hall := hhead.seq ((prints_initializer ht f.name f.ty f.value).seq hend)
      simpa [memberNames] using hall
  | const k =>
      change (constLine cx k).Prints cx []
      unfold constLine
      split_ifs
      · refine prints_lift fun type htype => prints_lift fun value hvalue =>
          prints_line_of_words ht ?_
        simp only [List.append_assoc]
        have htype := plain_typeCode htype
        have hvalue := plain_constValue ht k.value hvalue
        exact plain_constHead _ _ fun name supplier => by
          simp [htype name supplier, hvalue name supplier]
      · exact prints_pure ()
  | method m =>
      refine prints_newline.seq
        (prints_lift fun params hparams => prints_lift fun returned hreturned => ?_)
      have hparams := plain_commaSeparated (plain_params hparams)
      have hreturned := plain_typeCode hreturned
      have hhead : Plain ([visibilityWord m.visibility, .gap] ++
          (if m.isStatic then [Lexeme.word "static", Lexeme.gap] else []) ++
          [.word "function", .gap, cx.localWord m.name] ++
          Code.parenthesized (.commaSeparated params) ++ Code.operator ":" ++ returned) := by
        refine plain_visibilityWord _ fun name supplier => ?_
        have hnames := hparams name supplier
        simp only [Code.names_commaSeparated] at hnames
        split_ifs <;> simp [Context.localWord, hreturned name supplier, hnames]
      exact (prints_line_of_words ht hhead).seq (Context.prints_body m.body)

theorem prints_contentLines (ht : cx.target = .actionScript) (c : ClassDef) :
    (contentLines cx c).Prints cx (contentNames cx c) := by
  have hmembers : (c.members.forM (memberLines cx)).Prints cx
      (c.members.flatMap (memberNames cx)) :=
    prints_forM fun m _ => prints_memberLines ht m
  have htables : (c.constArrays.forM (tableLine cx)).Prints cx [] :=
    prints_forM_of_plain fun k _ => prints_lift fun value hvalue => prints_line_of_words ht (by
      simp only [List.append_assoc]
      have hvalue := plain_constValue ht k.value hvalue
      exact plain_constHead _ _ fun name supplier => by simp [hvalue name supplier])
  unfold contentLines contentNames
  refine hmembers.seq ?_
  cases c.constructor? with
  | none => exact htables
  | some stmts =>
      have hhead : (Emit.line [.word "public", .gap, .word "function", .gap, .word c.name,
          .symbol "(", .symbol ")"]).Prints cx [] := prints_line_of_words ht (by simp [Plain])
      have hconstructor : (constructorLines cx c stmts).Prints cx (cx.blockNames stmts) :=
        prints_newline.seq (hhead.seq (Context.prints_body stmts))
      exact (hconstructor.seq htables).of_eq (List.append_nil _)

theorem plays_contentLines (c : ClassDef) : (contentLines cx c).Plays := by
  have htables : (c.constArrays.forM (tableLine cx)).Plays :=
    plays_forM fun k _ => plays_tableLine k
  refine (plays_forM fun m _ => plays_memberLines m).seq ?_
  cases c.constructor? with
  | none => exact htables
  | some stmts => exact (plays_constructorLines c stmts).seq htables

/-- The class that a top-level symbol is printed as: its name and what stands in its file. -/
def symbolUnit (cx : Context) (place : Placement) : SymbolId → Option (String × String)
  | .enumeration id => (cx.program.enums[id.index.toNat]?).map fun e =>
    (e.name, (classLines place e.name e.visibility (enumeratorLines e)).text)
  | .classDef id => (cx.program.classes[id.index.toNat]?).map fun c =>
    (c.name, (classLines place c.name c.visibility
      (contentLines { cx with current := some id } c)).text)

/-- The names that a top-level symbol is printed with. -/
def symbolNames (cx : Context) : SymbolId → List PrintedName
  | .enumeration _ => []
  | .classDef id => ((cx.program.classes[id.index.toNat]?).map fun c =>
    contentNames { cx with current := some id } c).getD []

theorem writes_enumeration (ht : cx.target = .actionScript) (e : EnumDef) :
    (enumeration place e).Writes cx []
      [place.file (e.name, (classLines place e.name e.visibility (enumeratorLines e)).text)] :=
  (writes_note _).seq (writes_classFile ht place e.name e.visibility
    (plays_forM fun _ _ => plays_line _) (prints_enumeratorLines ht e))

theorem writes_classDef (ht : cx.target = .actionScript) (id : ClassId) :
    (classDef cx place id).Writes cx (symbolNames cx (.classDef id))
      ((symbolUnit cx place (.classDef id)).toList.map place.file) := by
  rw [classDef_eq]
  refine writes_lift fun c hc => ?_
  have hclass : cx.program.classes[id.index.toNat]? = some c := Context.classOf_eq_ok hc
  let inside : Context := { cx with current := some id }
  have hinside : inside.target = .actionScript := ht
  have hprints := prints_contentLines hinside c
  have hfile := writes_classFile hinside place c.name c.visibility (plays_contentLines c) hprints
  exact Emit.Writes.of_eq ((writes_note _).seq hfile) (by simp [symbolNames, hclass, inside])
    (by simp [symbolUnit, hclass, inside])

/-- What prints a top-level symbol. -/
def symbolFile (cx : Context) (place : Placement) : SymbolId → Emit Unit
  | .enumeration id => do enumeration place (← (cx.enumOf id : Result EnumDef))
  | .classDef id => classDef cx place id

theorem writes_symbolFile (ht : cx.target = .actionScript) (place : Placement) (id : SymbolId) :
    (symbolFile cx place id).Writes cx (symbolNames cx id)
      ((symbolUnit cx place id).toList.map place.file) := by
  cases id with
  | enumeration id =>
      refine writes_lift fun e he => ?_
      have henum : cx.program.enums[id.index.toNat]? = some e := Context.enumOf_eq_ok he
      exact (writes_enumeration ht e).of_eq rfl (by simp [symbolUnit, henum])
  | classDef id => exact writes_classDef ht id

theorem writes_symbolFiles (ht : cx.target = .actionScript) :
    (symbolFiles cx place).Writes cx (cx.program.globals.flatMap (symbolNames cx))
      ((cx.program.globals.filterMap (symbolUnit cx place)).map place.file) := by
  have hall : (cx.program.globals.forM (symbolFile cx place)).Writes cx
      (cx.program.globals.flatMap (symbolNames cx))
        ((cx.program.globals.filterMap (symbolUnit cx place)).map place.file) :=
    (writes_forM fun id _ => writes_symbolFile ht place id).of_eq rfl (by
      rw [List.filterMap_eq_flatMap_toList, List.map_flatMap])
  have hsymbols : symbolFiles cx place = (do
      if !cx.program.natives.isEmpty then (cx.unsupported .topLevelNatives : Result Unit)
      cx.program.globals.forM (symbolFile cx place)) := rfl
  rw [hsymbols]
  dsimp only
  split_ifs
  · exact writes_lift fun _ _ => hall
  · exact hall

/-- The lines of the text at the given level. -/
def indentedText (level : Nat) (text : String) : String :=
  String.join ((linesOf text).map fun line =>
    (if line = "" then "" else Writer.margin level ++ line) ++ "\n")

/-- The file of the helper class with the given functions. -/
def helperClassText (package : Option String) (texts : List String) : String :=
  "package" ++ package.elim "" (" " ++ ·) ++ "\n\x7b\n\timport flash.utils.ByteArray;\n\n" ++
    "\tinternal class Ci\n\t\x7b\n" ++ "\n".intercalate (texts.map (indentedText 2)) ++
      "\t\x7d\n\x7d\n"

end ActionScript

namespace Emit

variable {level : Nat} {text rest : String} {e next : Emit Unit}

/-- The emission goes through. Wherever a line starts at the level, it adds the text and ends where
a line starts at the level. -/
structure AddsLines (level : Nat) (text : String) (e : Emit Unit) : Prop where
  outcome : e.outcome = .ok ()
  plays : ∀ w notices, w.At level true → ∃ notices',
    (Desk.mk w notices).play? e.steps = some ⟨w.further text level true, notices'⟩

theorem AddsLines.seq (h : e.AddsLines level text) (hnext : next.AddsLines level rest) :
    AddsLines level (text ++ rest) (do e; next) := by
  obtain ⟨hok, hplays⟩ := h
  obtain ⟨steps, outcome⟩ := e
  obtain rfl : outcome = .ok () := hok
  refine ⟨hnext.outcome, fun w notices hw => ?_⟩
  obtain ⟨notices', hplay⟩ := hplays w notices hw
  obtain ⟨notices'', hplay'⟩ := hnext.plays _ notices' (Writer.at_further w text)
  have hsteps : (do (⟨steps, .ok ()⟩ : Emit Unit); next).steps = steps ++ next.steps := rfl
  exact ⟨notices'', by simp [hsteps, Desk.play?_append, hplay, hplay', Writer.further_further]⟩

theorem addsLines_pure : (pure () : Emit Unit).AddsLines level "" :=
  ⟨rfl, fun _ notices hw =>
    ⟨notices, congrArg (fun w => some (Desk.mk w notices)) (Writer.further_empty hw).symm⟩⟩

theorem addsLines_note (notice : Notice) : (note notice).AddsLines level "" :=
  ⟨rfl, fun w notices hw => ⟨notices ++ [notice], by
    simp [note, ofSteps, Desk.step?, Writer.further_empty hw]⟩⟩

theorem addsLines_newline : newline.AddsLines level "\n" :=
  ⟨rfl, fun w notices hw => ⟨notices, by
    simp [newline, ofSteps, Desk.step?, Writer.newline, Writer.further, ← hw.1]⟩⟩

/-- Within a line, code is added as it is. -/
theorem foldl_write_eq (code : Code) {w : Writer} (hw : w.atLineStart = false) :
    code.foldl (fun w l => w.write l.text) w = { w with out := w.out ++ code.text } := by
  induction code generalizing w with
  | nil => simp [Code.text]
  | cons l rest ih =>
      have hwrite : w.write l.text = { w with out := w.out ++ l.text } := by
        by_cases hempty : l.text = "" <;> cases w <;> simp_all [Writer.write]
      have hrest := @ih { w with out := w.out ++ l.text } hw
      rw [List.foldl_cons, hwrite, hrest]
      simp [Code.text, String.append_assoc]

theorem addsLines_line {l : Lexeme} {code : Code} (hne : l.text ≠ "") :
    (line (l :: code)).AddsLines level
      (Writer.margin level ++ (Code.text (l :: code) ++ "\n")) := by
  refine ⟨rfl, fun w notices hw => ⟨notices, ?_⟩⟩
  obtain ⟨rfl, hstart⟩ := hw
  have hfirst : w.write l.text =
      { w with out := w.out ++ Writer.margin w.indent ++ l.text, atLineStart := false } := by
    simp [Writer.write, hne, hstart]
  have hcode := @foldl_write_eq code
    { w with out := w.out ++ Writer.margin w.indent ++ l.text, atLineStart := false } rfl
  have hplay : (Desk.mk w notices).play? (line (l :: code)).steps =
      some ⟨((l :: code).foldl (fun w l => w.write l.text) w).newline, notices⟩ := rfl
  rw [hplay, List.foldl_cons, hfirst, hcode]
  simp [Writer.newline, Writer.further, Code.text, String.append_assoc]

theorem addsLines_lines (text : String) :
    (lines text).AddsLines level (ActionScript.indentedText level text) := by
  refine ⟨rfl, fun w notices hw => ⟨notices, ?_⟩⟩
  have hlines : ∀ (ls : List String) (w : Writer), w.At level true →
      ls.foldl Writer.writeLine w = w.further (String.join (ls.map fun line =>
        (if line = "" then "" else Writer.margin level ++ line) ++ "\n")) level true := by
    intro ls
    induction ls with
    | nil => exact fun w hw => (Writer.further_empty hw).symm
    | cons line rest ih =>
        rintro w ⟨rfl, hstart⟩
        have hline : w.writeLine line =
            w.further ((if line = "" then "" else Writer.margin w.indent ++ line) ++ "\n")
              w.indent true := by
          by_cases hempty : line = "" <;>
            simp [Writer.writeLine, Writer.write, Writer.newline, Writer.further, hempty, hstart,
              String.append_assoc]
        rw [List.foldl_cons, hline, ih _ (Writer.at_further ..), Writer.further_further,
          List.map_cons, String.join_cons]
  have hwritten : w.writeLines text = _ := hlines (linesOf text) w hw
  simp only [lines, ofSteps, Desk.play?_singleton, Desk.step?, hwritten]
  rfl

theorem AddsLines.indented (h : e.AddsLines (level + 1) text) :
    e.indented.AddsLines level text := by
  refine ⟨h.outcome, fun w notices hw => ?_⟩
  obtain ⟨notices', hplay⟩ := h.plays w.indentMore notices ⟨by rw [← hw.1]; rfl, hw.2⟩
  refine ⟨notices', ?_⟩
  change (Desk.mk w notices).play? ([Step.indent] ++ (e.steps ++ [Step.dedent])) = _
  rw [Desk.play?_append, Desk.play?_singleton, Desk.step?, Option.bind_some, Desk.play?_append,
    hplay, Option.bind_some, Desk.play?_singleton]
  rfl

theorem AddsLines.braced (h : e.AddsLines (level + 1) text) : e.braced.AddsLines level
    (Writer.margin level ++ "\x7b\n" ++ text ++ Writer.margin level ++ "\x7d\n") := by
  have hopen : (line [.symbol "\x7b"]).AddsLines level _ := addsLines_line (by decide)
  have hclose : (line [.symbol "\x7d"]).AddsLines level _ := addsLines_line (by decide)
  have hinner := h.indented
  have hbraced : e.braced = (do line [.symbol "\x7b"]; e.indented; line [.symbol "\x7d"]) := by
    rcases e with ⟨steps, outcome⟩
    obtain rfl : outcome = .ok () := h.outcome
    rfl
  have hall := hopen.seq (hinner.seq hclose)
  rw [hbraced]
  simpa [Code.text, Lexeme.text, String.append_assoc] using hall

theorem AddsLines.text_eq (h : e.AddsLines 0 text) : e.text = text := by
  obtain ⟨notices, hplay⟩ := h.plays .new [] ⟨rfl, rfl⟩
  rw [Emit.text, hplay]
  simp [Writer.further, Writer.new]

end Emit

namespace ActionScript

open Emit

variable {cx : Context} {place : Placement}

theorem addsLines_separatedLines {level : Nat} (texts : List String) :
    (separatedLines texts).AddsLines level
      ("\n".intercalate (texts.map (indentedText level))) := by
  induction texts with
  | nil =>
      exact addsLines_pure
  | cons text rest ih =>
      cases rest with
      | nil => exact addsLines_lines text
      | cons next rest =>
          rw [List.map_cons, List.map_cons, String.intercalate_cons_cons, String.append_assoc]
          exact (addsLines_lines text).seq (addsLines_newline.seq ih)

theorem text_helperClass (place : Placement) (texts : List String) :
    (classLines place "Ci" .internal (separatedLines texts)).text =
      helperClassText place.package texts := by
  have himport : (Emit.line [.word "import", .gap, .word "flash", .symbol ".", .word "utils",
      .symbol ".", .word "ByteArray", .symbol ";"]).AddsLines 1 _ := addsLines_line (by decide)
  have hclass : (Emit.line [visibilityWord .internal, .gap, .word "class", .gap,
      .word "Ci"]).AddsLines 1 _ := addsLines_line (by decide)
  have hinside := Emit.AddsLines.braced (himport.seq (addsLines_newline.seq
    (hclass.seq (addsLines_separatedLines texts).braced)))
  have hhead : (Emit.line (match place.package with
      | some package => [.word "package", .gap, .word package]
      | none => [.word "package"])).AddsLines 0
        ("package" ++ place.package.elim "" (" " ++ ·) ++ "\n") := by
    cases place.package with
    | none =>
        have hline : (Emit.line [.word "package"]).AddsLines 0 _ := addsLines_line (by decide)
        simpa [Code.text, Lexeme.text, Writer.margin] using hline
    | some package =>
        have hline : (Emit.line [.word "package", .gap, .word package]).AddsLines 0 _ :=
          addsLines_line (by decide)
        simpa [Code.text, Lexeme.text, Writer.margin, String.append_assoc] using hline
  refine ((hhead.seq hinside).text_eq).trans (String.toList_inj.mp ?_)
  simp [helperClassText, Code.text, Lexeme.text, visibilityWord, Writer.margin]

theorem prints_separatedLines (texts : List String) : (separatedLines texts).Prints cx [] := by
  induction texts with
  | nil => exact prints_pure ()
  | cons text rest ih =>
      cases rest with
      | nil => exact prints_lines text
      | cons next rest => exact (prints_lines text).seq (prints_newline.seq ih)

/-- The functions of the helper class that a name in a class is supplied by, in order. -/
def neededHelpers (cx : Context) : List (Helper × String) :=
  helperTexts.filter fun entry => .helper entry.1 ∈
    (cx.program.globals.flatMap (symbolNames cx)).filterMap PrintedName.supplier?

/-- The classes of a program's files: one for each top-level symbol, and the helper class if one of
its functions is needed. -/
def units (cx : Context) (place : Placement) : List (String × String) :=
  cx.program.globals.filterMap (symbolUnit cx place) ++
    if (neededHelpers cx).isEmpty then []
    else [("Ci", helperClassText place.package ((neededHelpers cx).map Prod.snd))]

theorem writes_helperFile (ht : cx.target = .actionScript) {used : List Supplier}
    {needed : List (Helper × String)}
    (hneeded : helperTexts.filter (fun entry => .helper entry.1 ∈ used) = needed) :
    (helperFile place used).Writes cx [] (List.map place.file (if needed.isEmpty then [] else
      [("Ci", helperClassText place.package (needed.map Prod.snd))])) := by
  unfold helperFile
  rw [hneeded]
  dsimp only
  split_ifs
  · exact writes_pure ()
  · have hfile := writes_classFile ht place "Ci" .internal (plays_separatedLines _)
      (prints_separatedLines (needed.map Prod.snd))
    rw [text_helperClass] at hfile
    exact (writes_note _).seq hfile

/-- The helper class has the functions that the classes before it call. -/
theorem play?_files (ht : cx.target = .actionScript) (hok : (files cx place).outcome = .ok ()) :
    ∃ d, (Desk.mk .new []).play? (files cx place).steps = some d ∧
      d.writer.files = (units cx place).map place.file := by
  have hfiles : files cx place = ⟨(files cx place).steps, .ok ()⟩ := by rw [← hok]
  obtain ⟨⟨⟩, first, rest, hfirst, hrest, hsteps⟩ := bind_eq_ok.mp hfiles
  obtain ⟨hlists, hplays⟩ := writes_symbolFiles ht first () hfirst
  have hneeded : helperTexts.filter (fun entry => .helper entry.1 ∈
      (symbolFiles cx place).suppliers) = neededHelpers cx := by
    refine List.filter_congr fun entry _ => decide_eq_decide.mpr ?_
    rw [mem_suppliers, hfirst]
    exact hlists.exists_supplied
  obtain ⟨-, hplays'⟩ := writes_helperFile ht hneeded rest () hrest
  obtain ⟨d, hplay, hfree, hwritten⟩ := hplays ⟨.new, []⟩ Writer.idle_new
  obtain ⟨d', hplay', -, hwritten'⟩ := hplays' d hfree
  refine ⟨d', by rw [hsteps, Desk.play?_append, hplay, Option.bind_some, hplay'], ?_⟩
  rw [hwritten', hwritten, units, List.map_append]
  rfl

/-- In a successful run the emission of the files goes through on an empty desk. -/
theorem perform_of_generate {p : Program} {o : Options} {files : List OutputFile}
    (h : (generate "as" p o).files = .ok files) :
    ∃ desk : Desk, (Desk.mk .new []).play? (ActionScript.files ⟨p, .actionScript, none⟩
        ⟨o.output, o.package⟩).steps = some desk ∧
      (ActionScript.files ⟨p, .actionScript, none⟩ ⟨o.output, o.package⟩).outcome = .ok () ∧
      files = desk.writer.files := by
  have hname : Backend.ofName? "as" = .ok ⟨.actionScript, .new⟩ := rfl
  simp only [generate, hname, Backend.run, Backend.emission] at h
  rcases hrun : (Run.perform (ActionScript.files ⟨p, .actionScript, none⟩
    ⟨o.output, o.package⟩)).run.run ⟨.new, []⟩ with ⟨fault | ⟨⟩, desk⟩
  · simp [hrun] at h
  · rw [hrun] at h
    obtain ⟨hplay, hok⟩ := Run.perform_eq_ok.mp hrun
    exact ⟨desk, hplay, hok, (Except.ok.inj h).symm⟩

/-- A successful run leaves a file for each class. -/
theorem generate_eq_ok {p : Program} {o : Options} {files : List OutputFile}
    (h : (generate "as" p o).files = .ok files) :
    files = (units ⟨p, .actionScript, none⟩ ⟨o.output, o.package⟩).map
      (Placement.file ⟨o.output, o.package⟩) := by
  obtain ⟨desk, hplay, hok, rfl⟩ := perform_of_generate h
  obtain ⟨d, hplay', hfiles⟩ := play?_files rfl hok
  obtain rfl : d = desk := Option.some.inj (hplay'.symm.trans hplay)
  exact hfiles

end ActionScript

end Emitter
