import Emitter.Proofs.Whole.CodeLines
import Emitter.Proofs.Whole.FileNames

/-!
# Constants of ActionScript classes

A constant that is not public is replaced by its value where it is referred to, and any other is
referred to by the name that a line of its class's file declares it with. A constant table is always
declared as private, whoever refers to it.
-/

namespace Emitter

open Layout Program Text

namespace Step

/-- The code behind the last line end. -/
def openCode : Code → List Step → Code
  | start, [] => start
  | start, .put code :: rest => openCode (start ++ code) rest
  | _, .newline :: rest => openCode [] rest
  | start, .lines text :: rest => openCode (if (linesOf text).isEmpty then start else []) rest
  | start, _ :: rest => openCode start rest

theorem codeLines_append (start : Code) (first rest : List Step) :
    codeLines start (first ++ rest) =
      codeLines start first ++ codeLines (openCode start first) rest := by
  induction first generalizing start with
  | nil => rfl
  | cons step first ih => cases step <;> simp [codeLines, openCode, ih]

theorem endsLine_eq (start : Code) (steps : List Step) :
    endsLine (start.text = "") steps = decide ((openCode start steps).text = "") := by
  induction steps generalizing start with
  | nil => rfl
  | cons step steps ih =>
      have hstep : ∀ next : Code, startsLine (start.text = "") step = decide (next.text = "") →
          endsLine (start.text = "") (step :: steps) = endsLine (next.text = "") steps := by
        intro next h
        rw [← h]
        rfl
      cases step with
      | put code =>
          exact (hstep (start ++ code) (by simp [startsLine, Code.text_append])).trans (ih _)
      | newline => exact (hstep [] rfl).trans (ih _)
      | lines text =>
          refine (hstep (if (linesOf text).isEmpty then start else []) ?_).trans (ih _)
          rw [startsLine]
          split_ifs with hempty
          · rw [hempty]
            exact Bool.or_false _
          · rw [Bool.not_eq_true] at hempty
            rw [hempty]
            exact Bool.or_true _
      | _ => exact (hstep start rfl).trans (ih _)

end Step

namespace Emit

variable {α β : Type} {line : String}

/-- An emission that goes through prints the text as a line of code, if nothing but a margin stands
before it. -/
def Shows (e : Emit α) (line : String) : Prop :=
  ∀ steps a, e = ⟨steps, .ok a⟩ → ∀ start : Code, start.text = "" →
    ∃ code ∈ Step.codeLines start steps, code.text = line

theorem shows_line (code : Code) : (Emit.line code).Shows code.text := by
  intro steps _ h start hstart
  obtain rfl := ofSteps_eq_ok.mp h
  exact ⟨start ++ code, by simp [Step.codeLines], by simp [Code.text_append, hstart]⟩

theorem Shows.first {e : Emit α} (h : e.Shows line) (next : α → Emit β) :
    (e >>= next).Shows line := fun steps b hsteps start hstart => by
  obtain ⟨a, first, rest, hfirst, -, rfl⟩ := bind_eq_ok.mp hsteps
  obtain ⟨code, hcode, hline⟩ := h first a hfirst start hstart
  rw [Step.codeLines_append]
  exact ⟨code, List.mem_append_left _ hcode, hline⟩

theorem Keeps.shows {e : Emit α} (hkeeps : e.Keeps) {next : α → Emit β}
    (h : ∀ a, e.outcome = .ok a → (next a).Shows line) : (e >>= next).Shows line :=
  fun steps b hsteps start hstart => by
  obtain ⟨a, first, rest, hfirst, hrest, rfl⟩ := bind_eq_ok.mp hsteps
  have hopen : (Step.openCode start first).text = "" := by
    have hends := Step.endsLine_eq start first
    simpa [hstart, hkeeps first a hfirst] using hends
  obtain ⟨code, hcode, hline⟩ := h a (by rw [hfirst]) rest b hrest _ hopen
  rw [Step.codeLines_append]
  exact ⟨code, List.mem_append_right _ hcode, hline⟩

theorem shows_lift {r : Result α} {next : α → Emit β} (h : ∀ a, r = .ok a → (next a).Shows line) :
    (liftM r >>= next).Shows line := (keeps_lift r).shows h

theorem shows_forM {f : α → Emit Unit} {items : List α} (hkeeps : ∀ item ∈ items, (f item).Keeps)
    {item : α} (hitem : item ∈ items) (h : (f item).Shows line) : (items.forM f).Shows line := by
  induction items with
  | nil => simp at hitem
  | cons first rest ih =>
      obtain ⟨hfirst, hrest⟩ := List.forall_mem_cons.mp hkeeps
      rcases List.mem_cons.mp hitem with rfl | hitem
      · exact h.first _
      · exact hfirst.shows fun _ _ => ih hrest hitem

theorem Shows.braced {e : Emit Unit} (h : e.Shows line) : e.braced.Shows line :=
  fun steps _ hsteps start hstart => by
  obtain ⟨inner, he, rfl⟩ := braced_eq_ok.mp hsteps
  obtain ⟨code, hcode, hline⟩ := h inner () he [] rfl
  refine ⟨code, List.mem_cons_of_mem _ ?_, hline⟩
  change code ∈ Step.codeLines [] (inner ++ _)
  rw [Step.codeLines_append]
  exact List.mem_append_left _ hcode

end Emit

namespace ActionScript

open Emit

variable {cx : Context} {place : Placement} {c : ClassDef} {k : ConstDef}

theorem keeps_memberLines (cx : Context) (m : Member) : (memberLines cx m).Keeps := by
  cases m with
  | field f => exact (ends_bind fun _ => ends_bind fun _ => ends_bind fun _ => ends_line _).keeps
  | const k =>
      change (constLine cx k).Keeps
      unfold constLine
      split_ifs
      · exact (ends_bind fun _ => ends_bind fun _ => ends_line _).keeps
      · exact keeps_pure ()
  | method m =>
      exact (ends_bind fun _ => ends_bind fun _ => ends_bind fun _ => ends_bind fun _ =>
        ends_braced _).keeps

theorem keeps_constructorLines (cx : Context) (c : ClassDef) (stmts : Block) :
    (constructorLines cx c stmts).Keeps :=
  (ends_bind fun _ => ends_bind fun _ => ends_braced _).keeps

theorem keeps_tableLine (cx : Context) (k : ConstDef) : (tableLine cx k).Keeps :=
  (ends_bind fun _ => ends_line _).keeps

/-- The line that declares a constant of the given visibility, type and value. -/
def declaration (visibility : String) (k : ConstDef) (type value : Code) : String :=
  visibility ++ " static const " ++ upperSnakeCase k.emittedName ++ " : " ++ type.text ++ " = " ++
    value.text ++ ";"

theorem text_declaration (visibility : Visibility) (k : ConstDef) (type value : Code) :
    Code.text (constHead visibility k.emittedName ++ Code.operator ":" ++ type ++
      Code.operator "=" ++ value ++ ([.symbol ";"] : Code)) =
        declaration (visibilityWord visibility).text k type value :=
  String.toList_inj.mp (by
    simp [constHead, declaration, Code.operator, Code.text, Lexeme.text])

theorem shows_constLine (h : k.visibility = .exported) {type value : Code}
    (htype : typeCode cx k.ty = .ok type) (hvalue : cx.constValue k.value = .ok value) :
    (constLine cx k).Shows (declaration "public" k type value) := by
  rw [constLine, if_pos h]
  refine shows_lift fun type' htype' => shows_lift fun value' hvalue' => ?_
  obtain rfl := Except.ok.inj (htype.symm.trans htype')
  obtain rfl := Except.ok.inj (hvalue.symm.trans hvalue')
  have hline : Code.text _ = declaration "public" k type value :=
    text_declaration .exported k type value
  exact hline ▸ shows_line _

theorem shows_tableLine {value : Code} (hvalue : cx.constValue k.value = .ok value) :
    (tableLine cx k).Shows (declaration "private" k [.word "Array"] value) := by
  refine shows_lift fun value' hvalue' => ?_
  obtain rfl := Except.ok.inj (hvalue.symm.trans hvalue')
  have hline : Code.text _ = declaration "private" k [.word "Array"] value :=
    text_declaration .hidden k [.word "Array"] value
  exact hline ▸ shows_line _

theorem shows_classLines {name : String} {visibility : Visibility} {inside : Emit Unit}
    {line : String} (h : inside.Shows line) :
    (classLines place name visibility inside).Shows line :=
  (ends_line _).keeps.shows fun _ _ => Shows.braced <| (ends_line _).keeps.shows fun _ _ =>
    ends_newline.keeps.shows fun _ _ => (ends_line _).keeps.shows fun _ _ => h.braced

theorem shows_member {m : Member} (hm : m ∈ c.members) {line : String}
    (h : (memberLines cx m).Shows line) : (contentLines cx c).Shows line :=
  (shows_forM (fun m _ => keeps_memberLines cx m) hm h).first _

theorem shows_table (hk : k ∈ c.constArrays) {line : String} (h : (tableLine cx k).Shows line) :
    (contentLines cx c).Shows line := by
  refine (keeps_forM fun m _ => keeps_memberLines cx m).shows fun _ _ => ?_
  have htables := shows_forM (fun k _ => keeps_tableLine cx k) hk h
  cases c.constructor? with
  | none => exact htables
  | some stmts => exact (keeps_constructorLines cx c stmts).shows fun _ _ => htables

variable {p : Program} {o : Options} {files : List OutputFile}

theorem outcome_braced (e : Emit Unit) : e.braced.outcome = e.outcome := by
  obtain ⟨steps, outcome⟩ := e
  cases outcome <;> rfl

theorem outcome_classLines (place : Placement) (name : String) (visibility : Visibility)
    (inside : Emit Unit) : (classLines place name visibility inside).outcome = inside.outcome := by
  simp only [classLines, outcome_bind, outcome_braced]
  rfl

/-- In a successful run everything that stands in the class of a listed symbol is printed. -/
theorem outcome_contentLines (hrun : (generate "as" p o).files = .ok files) {id : ClassId}
    (hid : .classDef id ∈ p.globals) (hc : p.classOf id = .ok c) :
    (contentLines ⟨p, .actionScript, some id⟩ c).outcome = .ok () := by
  have hsymbol := outcome_symbolFile hrun _ hid
  rw [symbolFile, classDef_eq] at hsymbol
  obtain ⟨c', hc', hnote⟩ := outcome_bind_eq_ok.mp hsymbol
  have hfound : p.classes[id.index.toNat]? = some c' := @Context.classOf_eq_ok ⟨p, _, _⟩ _ _ hc'
  obtain rfl : c = c' := Option.some.inj ((Program.classOf_eq_ok_iff.mp hc).symm.trans hfound)
  obtain ⟨-, -, hfile⟩ := outcome_bind_eq_ok.mp hnote
  rw [classFile_eq] at hfile
  obtain ⟨-, -, hlines⟩ := outcome_bind_eq_ok.mp hfile
  obtain ⟨⟨⟩, hclass, -⟩ := outcome_bind_eq_ok.mp hlines
  rwa [outcome_classLines] at hclass

/-- In a successful run the lines of a listed class stand in its file. -/
theorem hasLine_of_shows (hrun : (generate "as" p o).files = .ok files) {id : ClassId}
    (hid : .classDef id ∈ p.globals) (hc : p.classOf id = .ok c) {line : String}
    (h : (contentLines ⟨p, .actionScript, some id⟩ c).Shows line) :
    ∃ file ∈ files, file.path = o.output.join ⟨c.name ++ ".as"⟩ ∧ HasLine file.contents line := by
  let cx : Context := ⟨p, .actionScript, some id⟩
  let place : Placement := ⟨o.output, o.package⟩
  let lines := classLines place c.name c.visibility (contentLines cx c)
  have hunit : symbolUnit ⟨p, .actionScript, none⟩ place (.classDef id) =
      some (c.name, lines.text) := by
    simp [symbolUnit, Program.classOf_eq_ok_iff.mp hc, lines, cx]
  have hfile : place.file (c.name, lines.text) ∈ files := by
    rw [generate_eq_ok hrun]
    exact List.mem_map_of_mem (List.mem_append_left _ (List.mem_filterMap.mpr ⟨_, hid, hunit⟩))
  have hok : lines.outcome = .ok () :=
    (outcome_classLines ..).trans (outcome_contentLines hrun hid hc)
  have hlines : lines = ⟨lines.steps, .ok ()⟩ := by rw [← hok]
  have hcontent : (contentLines cx c).Prints cx (contentNames cx c) := prints_contentLines rfl c
  have hstay : ∀ step ∈ lines.steps, step.staysInFile = true :=
    (prints_classLines rfl hcontent _ () hlines).1
  have hkeeps : lines.Keeps := (ends_bind fun _ => ends_braced _).keeps
  obtain ⟨code, hcode, rfl⟩ := shows_classLines h _ () hlines [] rfl
  exact ⟨_, hfile, rfl, hasLine_text hstay
    (printsText_text hok (plays_classLines (plays_contentLines c)) hstay hkeeps) hcode⟩

/-- The constant that a class replaces by its value where it is referred to by the name. -/
def inlined? (c : ClassDef) (name : String) : Option ConstDef :=
  c.consts.find? fun k => k.name = name && k.visibility ≠ .exported

/-- One of the files is that of the class and has the line that declares the constant with its
value. -/
def DeclaresConst (p : Program) (o : Options) (files : List OutputFile) (owner : ClassId)
    (c : ClassDef) (visibility : String) (k : ConstDef) : Prop :=
  ∃ file ∈ files, file.path = o.output.join ⟨c.name ++ ".as"⟩ ∧ ∃ type value : Code,
    (Context.mk p .actionScript (some owner)).constValue k.value = .ok value ∧
      HasLine file.contents (declaration visibility k type value)

theorem declaresConst_member (hrun : (generate "as" p o).files = .ok files) {owner : ClassId}
    (howner : .classDef owner ∈ p.globals) (hc : p.classOf owner = .ok c) (hk : k ∈ c.consts)
    (hpublic : k.visibility = .exported) : DeclaresConst p o files owner c "public" k := by
  have hm : .const k ∈ c.members := by
    obtain ⟨m, hm, hmk⟩ := List.mem_filterMap.mp hk
    cases m with
    | const k' =>
        obtain rfl : k' = k := Option.some.inj hmk
        exact hm
    | field f => cases hmk
    | method m => cases hmk
  obtain ⟨⟨⟩, hmembers, -⟩ := outcome_bind_eq_ok.mp (outcome_contentLines hrun howner hc)
  have hline := outcome_of_forM hmembers _ hm
  rw [memberLines, constLine, if_pos hpublic] at hline
  obtain ⟨type, htype, hvalue⟩ := outcome_bind_eq_ok.mp hline
  obtain ⟨value, hvalue, -⟩ := outcome_bind_eq_ok.mp hvalue
  obtain ⟨file, hfile, hpath, hhas⟩ := hasLine_of_shows hrun howner hc
    (shows_member hm (shows_constLine hpublic htype hvalue))
  exact ⟨file, hfile, hpath, type, value, hvalue, hhas⟩

theorem declaresConst_table (hrun : (generate "as" p o).files = .ok files) {owner : ClassId}
    (howner : .classDef owner ∈ p.globals) (hc : p.classOf owner = .ok c)
    (hk : k ∈ c.constArrays) : DeclaresConst p o files owner c "private" k := by
  have hcontent := outcome_contentLines hrun howner hc
  obtain ⟨⟨⟩, -, hrest⟩ := outcome_bind_eq_ok.mp hcontent
  have htables : (c.constArrays.forM
      (tableLine ⟨p, .actionScript, some owner⟩)).outcome = .ok () := by
    cases hconstructor : c.constructor? with
    | none =>
        simp only [hconstructor] at hrest
        exact hrest
    | some stmts =>
        simp only [hconstructor] at hrest
        exact (outcome_bind_eq_ok.mp hrest).choose_spec.2
  obtain ⟨value, hvalue, -⟩ := outcome_bind_eq_ok.mp (outcome_of_forM htables _ hk)
  obtain ⟨file, hfile, hpath, hhas⟩ :=
    hasLine_of_shows hrun howner hc (shows_table hk (shows_tableLine hvalue))
  exact ⟨file, hfile, hpath, _, value, hvalue, hhas⟩

theorem constant_eq {cx : Context} {owner : ClassId} {name : String} (hc : cx.classOf owner = .ok c)
    (hk : c.findConst name = some k) : constant cx owner name =
      match inlined? c name with
      | some h => do
        let value ← cx.constValue h.value
        return if h.value.isBelowZero then .parenthesized value else value
      | none => do
        return (← classPrefix cx owner) ++ [.word (upperSnakeCase k.emittedName)] := by
  have hemitted : k.emittedName = ((c.findConst name).map ConstDef.emittedName).getD name := by
    rw [hk]
    rfl
  rw [constant, hc, hemitted]
  rfl

theorem text_classPrefix {cx : Context} {owner : ClassId} (hc : cx.classOf owner = .ok c)
    {qualifier : Code} (h : classPrefix cx owner = .ok qualifier) :
    qualifier.text = if cx.current = some owner then "" else c.name ++ "." := by
  unfold classPrefix at h
  split_ifs at h with hcurrent
  · obtain rfl := Except.ok.inj h
    rw [if_pos hcurrent]
    rfl
  · rw [hc] at h
    obtain rfl := Except.ok.inj h
    rw [if_neg hcurrent]
    exact String.toList_inj.mp (by simp [Code.text, Lexeme.text])

/-- A reference to a constant is printed as the constant's value, if it is a member that is not
public, and else by the name that a line of its class's file declares it with: publicly a member,
and privately a table. It is understood that the constants which the class replaces by their values
are found under the same name. -/
theorem inlined_or_declared (hrun : (generate "as" p o).files = .ok files) {owner : ClassId}
    (howner : .classDef owner ∈ p.globals) (hc : p.classOf owner = .ok c) {name : String}
    (hk : c.findConst name = some k)
    (hsame : ∀ h, inlined? c name = some h ↔ h = k ∧ k ∈ c.consts ∧ k.visibility ≠ .exported)
    {current : Option ClassId} {ty : Ty} {code : Code}
    (hcode : (Context.mk p .actionScript current).code (.const owner name ty) = .ok code) :
    (k ∈ c.consts ∧ k.visibility ≠ .exported ∧ ∃ value,
      (Context.mk p .actionScript current).constValue k.value = .ok value ∧
        code = if k.value.isBelowZero then .parenthesized value else value) ∨
    code.text = (if current = some owner then "" else c.name ++ ".") ++
        upperSnakeCase k.emittedName ∧
      (k ∈ c.consts ∧ k.visibility = .exported ∧ DeclaresConst p o files owner c "public" k ∨
        k ∈ c.constArrays ∧ DeclaresConst p o files owner c "private" k) := by
  have hclass : (Context.mk p .actionScript current).classOf owner = .ok c := by
    rw [Context.classOf, hc]
    rfl
  have hprinted := (constant_eq hclass hk).symm.trans hcode
  by_cases hhidden : k ∈ c.consts ∧ k.visibility ≠ .exported
  · rw [(hsame k).mpr ⟨rfl, hhidden⟩] at hprinted
    obtain ⟨value, hvalue, hcode⟩ := Result.bind_eq_ok.mp hprinted
    exact .inl ⟨hhidden.1, hhidden.2, value, hvalue, (Except.ok.inj hcode).symm⟩
  · have hnone : inlined? c name = none := by
      rw [Option.eq_none_iff_forall_ne_some]
      exact fun h hh => hhidden ((hsame h).mp hh).2
    rw [hnone] at hprinted
    obtain ⟨qualifier, hqualifier, hcode⟩ := Result.bind_eq_ok.mp hprinted
    obtain rfl := Except.ok.inj hcode
    refine .inr ⟨?_, ?_⟩
    · rw [Code.text_append, text_classPrefix hclass hqualifier]
      simp [Code.text, Lexeme.text]
    have hmem : k ∈ c.consts ++ c.constArrays := List.mem_of_find?_eq_some hk
    rcases List.mem_append.mp hmem with hmember | htable
    · have hpublic : k.visibility = .exported := not_not.mp fun h => hhidden ⟨hmember, h⟩
      exact .inl ⟨hmember, hpublic, declaresConst_member hrun howner hc hmember hpublic⟩
    · exact .inr ⟨htable, declaresConst_table hrun howner hc htable⟩

/-- A public constant that was lifted out of a method. -/
def limitConst : ConstDef :=
  ⟨"Limit", .exported, none, .int .int, .int 7, some "PaletteLimit"⟩

/-- A public table that was lifted out of a method. -/
def crcTable : ConstDef :=
  ⟨"Table", .exported, none, .array (.int .int) false none, .array [.int 1, .int 2],
    some "CrcTable"⟩

def paletteClass : ClassDef :=
  ⟨"Palette", .exported, none, none, [.const limitConst], [crcTable]⟩

/-- A class and another one, whose only method returns a constant of the first. -/
def readerProgram (c : ClassDef) (name : String) (ty : Ty) : Program :=
  ⟨[], [c, ⟨"Reader", .exported, none, none, [.method ⟨"Read", .exported, none, true, [],
    ty, [.returnValue (some (.const ⟨0⟩ name ty))]⟩], []⟩],
    [.classDef ⟨0⟩, .classDef ⟨1⟩], [], .empty⟩

theorem listed_readerProgram {owner : ClassDef} {name : String} {ty : Ty} (id : ClassId)
    (c : ClassDef) (hc : (readerProgram owner name ty).classOf id = .ok c) :
    .classDef id ∈ (readerProgram owner name ty).globals := by
  obtain ⟨index⟩ := id
  have hindex : index.toNat < 2 :=
    (List.getElem?_eq_some_iff.mp (Program.classOf_eq_ok_iff.mp hc)).choose
  rcases (by omega : index.toNat = 0 ∨ index.toNat = 1) with h | h
  · obtain rfl : index = 0 := UInt64.toNat_inj.mp h
    exact List.mem_cons_self
  · obtain rfl : index = 1 := UInt64.toNat_inj.mp h
    exact List.mem_cons_of_mem _ List.mem_cons_self

theorem inlined_or_declared_palette :
    let p := readerProgram paletteClass "PaletteLimit" (.int .int)
    let reader : Context := ⟨p, .actionScript, some ⟨1⟩⟩
    ∃ files, (generate "as" p ⟨⟨"out"⟩, none⟩).files = .ok files ∧
      .classDef ⟨0⟩ ∈ p.globals ∧ p.classOf ⟨0⟩ = .ok paletteClass ∧
      paletteClass.findConst "PaletteLimit" = some limitConst ∧
      reader.code (.const ⟨0⟩ "PaletteLimit" (.int .int)) =
        .ok [.word "Palette", .symbol ".", .word "PALETTE_LIMIT"] ∧
      DeclaresConst p ⟨⟨"out"⟩, none⟩ files ⟨0⟩ paletteClass "public" limitConst := by
  intro p reader
  have hrun : (generate "as" p ⟨⟨"out"⟩, none⟩).files.toOption.isSome = true := by decide +kernel
  have hlisted : .classDef ⟨0⟩ ∈ p.globals := by decide
  have hfound : paletteClass.findConst "PaletteLimit" = some limitConst := by rfl
  have hsame : ∀ h, inlined? paletteClass "PaletteLimit" = some h ↔
      h = limitConst ∧ limitConst ∈ paletteClass.consts ∧ limitConst.visibility ≠ .exported :=
    fun h => ⟨fun hh => (nomatch hh), fun hh => absurd rfl hh.2.2⟩
  have hcode : reader.code (.const ⟨0⟩ "PaletteLimit" (.int .int)) =
      .ok [.word "Palette", .symbol ".", .word "PALETTE_LIMIT"] := by decide +kernel
  rcases h : (generate "as" p ⟨⟨"out"⟩, none⟩).files with fault | files
  · rw [h] at hrun
    cases hrun
  · refine ⟨files, rfl, hlisted, rfl, hfound, hcode, ?_⟩
    rcases inlined_or_declared h hlisted rfl hfound hsame hcode with
      ⟨-, hhidden, -⟩ | ⟨-, ⟨-, -, hline⟩ | ⟨htable, -⟩⟩
    · exact absurd rfl hhidden
    · exact hline
    · exact absurd (congrArg ConstDef.name (List.mem_singleton.mp htable)) (by decide)

/-- The start of a declaration stands in a file, also byte by byte. -/
theorem DeclaresConst.isInfix {owner : ClassId} {visibility : String}
    (h : DeclaresConst p o files owner c visibility k) : ∃ file ∈ files,
      (visibility ++ " static const " ++ upperSnakeCase k.emittedName ++
        " ").toByteArray.data.toList <:+:
        file.contents.toByteArray.data.toList := by
  obtain ⟨file, hfile, -, type, value, -, before, levels, after, -, htext⟩ := h
  refine ⟨file, hfile, (before ++ Writer.margin levels).toByteArray.data.toList,
    (": " ++ type.text ++ " = " ++ value.text ++ ";\n" ++ after).toByteArray.data.toList, ?_⟩
  have hsplit : file.contents = before ++ Writer.margin levels ++
      (visibility ++ " static const " ++ upperSnakeCase k.emittedName ++ " ") ++
      (": " ++ type.text ++ " = " ++ value.text ++ ";\n" ++ after) :=
    String.toList_inj.mp (by simp [htext, declaration])
  simp [hsplit, String.toByteArray_append, ByteArray.data_append]

/-- Nothing in the files starts a declaration of the name with one of the visibilities. -/
def declaresNone (visibilities : List String) (name : String) (files : List OutputFile) : Bool :=
  files.all fun file => visibilities.all fun visibility =>
    !decide ((visibility ++ " static const " ++ name ++ " ").toByteArray.data.toList <:+:
      file.contents.toByteArray.data.toList)

theorem not_declaresConst {visibilities : List String}
    (h : declaresNone visibilities (upperSnakeCase k.emittedName) files = true)
    {visibility : String} (hvisibility : visibility ∈ visibilities) {owner : ClassId} :
    ¬DeclaresConst p o files owner c visibility k := by
  intro hdeclares
  obtain ⟨file, hfile, hinfix⟩ := hdeclares.isInfix
  have hnone := List.all_eq_true.mp (List.all_eq_true.mp h file hfile) visibility hvisibility
  rw [Bool.not_eq_true', decide_eq_false_iff_not] at hnone
  exact hnone hinfix

/-- The constant, kept to its class. -/
def hiddenLimit : ConstDef := { limitConst with visibility := .hidden }

def hiddenPalette : ClassDef := { paletteClass with members := [.const hiddenLimit] }

/-- A public table of a class is referred to by its name from another class, but the only line that
declares the name is private. A constant that is not public is replaced by its value where it is
referred to by its own name, but the name under which it was lifted out of a method is printed
instead, and no line declares that. -/
theorem private_table_named_outside :
    let tables := readerProgram paletteClass "CrcTable" crcTable.ty
    let limits := readerProgram hiddenPalette "PaletteLimit" (.int .int)
    (∃ files, (generate "as" tables ⟨⟨"out"⟩, none⟩).files = .ok files ∧
      (∀ id c, tables.classOf id = .ok c → .classDef id ∈ tables.globals) ∧
      tables.classOf ⟨0⟩ = .ok paletteClass ∧
      paletteClass.findConst "CrcTable" = some crcTable ∧
      Context.code ⟨tables, .actionScript, some ⟨1⟩⟩ (.const ⟨0⟩ "CrcTable" crcTable.ty) =
        .ok [.word "Palette", .symbol ".", .word "CRC_TABLE"] ∧
      DeclaresConst tables ⟨⟨"out"⟩, none⟩ files ⟨0⟩ paletteClass "private" crcTable ∧
      ∀ visibility ∈ ["public", "internal", "protected"],
        ¬DeclaresConst tables ⟨⟨"out"⟩, none⟩ files ⟨0⟩ paletteClass visibility crcTable) ∧
    ∃ files, (generate "as" limits ⟨⟨"out"⟩, none⟩).files = .ok files ∧
      (∀ id c, limits.classOf id = .ok c → .classDef id ∈ limits.globals) ∧
      limits.classOf ⟨0⟩ = .ok hiddenPalette ∧
      hiddenPalette.findConst "PaletteLimit" = some hiddenLimit ∧
      Context.code ⟨limits, .actionScript, some ⟨1⟩⟩ (.const ⟨0⟩ "PaletteLimit" (.int .int)) =
        .ok [.word "Palette", .symbol ".", .word "PALETTE_LIMIT"] ∧
      ∀ visibility ∈ ["public", "private", "internal", "protected"],
        ¬DeclaresConst limits ⟨⟨"out"⟩, none⟩ files ⟨0⟩ hiddenPalette visibility hiddenLimit := by
  intro tables limits
  refine ⟨?_, ?_⟩
  · have hrun : (generate "as" tables ⟨⟨"out"⟩, none⟩).files.toOption.any (declaresNone
        ["public", "internal", "protected"] (upperSnakeCase crcTable.emittedName)) = true := by
      decide +kernel
    obtain ⟨files, hfiles, hnone⟩ := (Option.any_eq_true _ _).mp hrun
    have hok := Result.eq_ok_of_toOption hfiles
    have htable : DeclaresConst tables ⟨⟨"out"⟩, none⟩ files ⟨0⟩ paletteClass "private" crcTable :=
      declaresConst_table hok List.mem_cons_self rfl (List.mem_singleton_self _)
    exact ⟨files, hok, listed_readerProgram, rfl, rfl, by decide +kernel, htable,
      fun _ hvisibility => not_declaresConst hnone hvisibility⟩
  · have hrun : (generate "as" limits ⟨⟨"out"⟩, none⟩).files.toOption.any (declaresNone
        ["public", "private", "internal", "protected"]
          (upperSnakeCase hiddenLimit.emittedName)) = true := by
      decide +kernel
    obtain ⟨files, hfiles, hnone⟩ := (Option.any_eq_true _ _).mp hrun
    exact ⟨files, Result.eq_ok_of_toOption hfiles, listed_readerProgram, rfl, rfl,
      by decide +kernel, fun _ hvisibility => not_declaresConst hnone hvisibility⟩

end ActionScript

end Emitter
