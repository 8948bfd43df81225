import Emitter.Proofs.Aggregates.Declaration

/-!
# Empty aggregates in a C file

Which items of a file a reader of its code finds an empty aggregate in: resources without bytes,
lists without items, and declarations with a length of zero. The code of an item is what its text
shows between tabs and the ends of lines.
-/

namespace Emitter

open Layout Program Text

/-! Margins and line ends do not matter to where an aggregate is empty, so texts are compared by
their visible characters. -/

/-- The characters that are no tabs and in no end of a line. -/
def visible (text : List Char) : List Char := text.filter (· ∉ ['\t', '\n', '\r'])

theorem visible_append (first second : List Char) :
    visible (first ++ second) = visible first ++ visible second := List.filter_append ..

theorem visible_eq_nil {text : List Char} (h : ∀ c ∈ text, c ∈ ['\t', '\n', '\r']) :
    visible text = [] :=
  List.filter_eq_nil_iff.mpr fun c hc => by rw [decide_eq_true_eq, not_not]; exact h c hc

theorem visible_dropReturn (line : List Char) : visible (dropReturn line) = visible line := by
  unfold dropReturn
  split_ifs with hlast
  · obtain ⟨front, rfl⟩ := List.getLast?_eq_some_iff.mp hlast
    have hreturn : visible ['\r'] = [] := by decide
    rw [List.dropLast_concat, visible_append, hreturn, List.append_nil]
  · rfl

theorem visible_linesFrom (line cs : List Char) :
    (linesFrom line cs).flatMap visible = visible (line ++ cs) := by
  induction cs generalizing line with
  | nil =>
      unfold linesFrom
      split_ifs with hempty
      · simp [List.isEmpty_iff.mp hempty, visible]
      · simp
  | cons c cs ih =>
      unfold linesFrom
      split_ifs with hc
      · have hend : visible (c :: cs) = visible cs := by simp [visible, hc]
        rw [List.flatMap_cons, visible_dropReturn, ih, List.nil_append, visible_append, hend]
      · rw [ih, List.append_assoc, List.singleton_append]

theorem visible_trimmed (text : String) : visible (trimmed text).toList = visible text.toList := by
  obtain ⟨front, hfront, htext⟩ := exists_trimmed text
  have hnone : visible front.toList = [] := visible_eq_nil fun c hc => by simp [hfront c hc]
  conv_rhs => rw [htext]
  rw [String.toList_append, visible_append, hnone, List.nil_append]

namespace Layout.Writer

theorem visible_write (w : Writer) (text : String) :
    visible (w.write text).out.toList = visible w.out.toList ++ visible text.toList := by
  have hmargin : visible (margin w.indent).toList = [] :=
    visible_eq_nil fun c hc => by simp [List.eq_of_mem_replicate (by simpa [margin] using hc)]
  unfold write
  split_ifs with hempty
  · simp [hempty, visible]
  · simp [visible_append, hmargin]
  · simp [visible_append]

theorem visible_newline (w : Writer) : visible w.newline.out.toList = visible w.out.toList := by
  simp [newline, visible]

theorem visible_writeCode (w : Writer) (code : Code) :
    visible (code.foldl (fun w l => w.write l.text) w).out.toList =
      visible w.out.toList ++ visible code.text.toList := by
  induction code generalizing w with
  | nil => simp [Code.text, visible]
  | cons l rest ih =>
      have htext : (Code.text (l :: rest)).toList = l.text.toList ++ (Code.text rest).toList := by
        simp [Code.toList_text]
      rw [List.foldl_cons, ih, visible_write, List.append_assoc, ← visible_append, htext]

theorem visible_writeLines (w : Writer) (text : String) :
    visible (w.writeLines text).out.toList = visible w.out.toList ++ visible text.toList := by
  have hall : ∀ lines : List (List Char), ∀ w : Writer,
      visible ((lines.map String.ofList).foldl writeLine w).out.toList =
        visible w.out.toList ++ lines.flatMap visible := by
    intro lines
    induction lines with
    | nil => simp
    | cons line rest ih =>
        intro w
        rw [List.map_cons, List.foldl_cons, ih, writeLine, visible_newline, visible_write]
        simp
  rw [writeLines, linesOf, hall, visible_linesFrom, List.nil_append]

end Layout.Writer

/-- What the step shows in a text: code, or lines that are copied. -/
def Step.shown : Step → List Char
  | .put code => code.text.toList
  | .lines text => text.toList
  | _ => []

theorem Desk.visible_of_play {steps : List Step} {d d' : Desk}
    (hstay : ∀ step ∈ steps, step.staysInFile = true) (h : d.play? steps = some d') :
    visible d'.writer.out.toList =
      visible d.writer.out.toList ++ visible (steps.flatMap Step.shown) := by
  induction steps generalizing d with
  | nil =>
      obtain rfl : d = d' := by simpa [play?] using h
      simp [visible]
  | cons step rest ih =>
      obtain ⟨hstep, hrest⟩ := List.forall_mem_cons.mp hstay
      obtain ⟨mid, hmid, h⟩ : ∃ mid, d.step? step = some mid ∧ mid.play? rest = some d' := by
        simpa [play?, List.foldlM_cons, Option.bind_eq_some_iff] using h
      have hshown : visible mid.writer.out.toList =
          visible d.writer.out.toList ++ visible step.shown := by
        cases step with
        | put code =>
            obtain rfl := Option.some.inj hmid
            exact d.writer.visible_writeCode code
        | newline =>
            obtain rfl := Option.some.inj hmid
            simpa [Step.shown, visible] using d.writer.visible_newline
        | lines text =>
            obtain rfl := Option.some.inj hmid
            exact d.writer.visible_writeLines text
        | indent | note =>
            obtain rfl := Option.some.inj hmid
            simp [Step.shown, visible, Writer.indentMore]
        | dedent =>
            obtain ⟨w, hw, rfl⟩ := Option.map_eq_some_iff.mp hmid
            unfold Writer.dedent? at hw
            split_ifs at hw
            obtain rfl := Option.some.inj hw
            simp [Step.shown, visible]
        | _ => simp [Step.staysInFile] at hstep
      rw [ih hrest h, hshown, List.append_assoc, ← visible_append, List.flatMap_cons]

namespace CFamily.Item

open Aggregates

variable {cx : Context} {d : Dialect}

/-- The code that the item is printed with. Lines copied from a text are no code. -/
def code (cx : Context) (d : Dialect) (item : Item) : Code :=
  (item.emission cx d).steps.flatMap Step.code

/-- What the item's lines show. -/
def shown (cx : Context) (d : Dialect) (item : Item) : List Char :=
  (item.emission cx d).steps.flatMap Step.shown

/-- The item holds nothing, or one of the lengths in it is zero. -/
def declaresEmpty : Item → Bool
  | definition _ k | table _ k => k.value.hasEmptyList
  | resource _ bytes => bytes.isEmpty
  | prototype _ _ m => m.params.any (·.ty.hasZeroLength)
  | layout _ c => c.fields.any (·.ty.hasZeroLength)
  | constructor _ c => ((c.constructor?.getD []).flatMap Stmt.locals).any (·.ty.hasZeroLength)
  | method _ _ m =>
    m.params.any (·.ty.hasZeroLength) || (m.body.flatMap Stmt.locals).any (·.ty.hasZeroLength)
  | header _ | native _ | enumeration _ | typedef _ _ | constructorPrototype _ _ | helper _ _ =>
    false

/-- The item's lines show its code and the lines that are copied into it, and nothing else. -/
theorem visible_text {item : Item} (ht : cx.target = .cFamily d) (hof : item.Of cx.program)
    (hok : (item.emission cx d).outcome = .ok ()) :
    visible (item.text cx d).toList = visible (item.shown cx d) := by
  obtain ⟨hstay, hprints⟩ := printsText_item ht hof hok
  obtain ⟨notices, hplay⟩ := hprints.plays .new [] ⟨rfl, rfl⟩
  have hshown := Desk.visible_of_play hstay hplay
  rw [text, visible_trimmed]
  simpa [Writer.further, Writer.new, visible_append, visible, shown] using hshown

theorem leads_emission {item : Item} (ht : cx.target = .cFamily d) (hp : cx.program.HasTypeNames)
    (hof : item.Of cx.program) :
    ∃ after, Leads [.plain] after item.declaresEmpty (item.emission cx d) := by
  have hend : Crosses [.plain] [.plain] false [.symbol ";"] := by decide
  have hname : ∀ {id : ClassId} {c : ClassDef}, cx.program.classOf id = .ok c →
      c.name ∉ leadingWords := fun hc => hp _ (Program.mem_classes_of_classOf hc)
  have hcopied : ∀ text : String, IsPlain false (do Emit.newline; Emit.lines text) := fun text =>
    (leads_newline _).behind (leads_lines _ text)
  cases item with
  | header h => exact ⟨[.plain], leads_line (by cases h <;> decide)⟩
  | native text | helper h text => exact ⟨_, hcopied text⟩
  | enumeration e => exact ⟨_, isPlain_enumeration e⟩
  | definition c k => exact ⟨_, isPlain_macroLine ht⟩
  | typedef id c =>
      have hfront : Crosses [.plain] typed false [.word "typedef", .gap, .word "struct", .gap] := by
        decide
      have hgap : Crosses [.name] typed false [.gap] := by decide
      have hlast : Crosses [.name] [.plain] false [.symbol ";"] := by decide
      have hword := (crosses_name (.word c.name) (.inl rfl) (hname hof)).2
      exact ⟨_, leads_line ((hfront.behind hword).behind (hgap.behind (hword.behind hlast)))⟩
  | constructorPrototype id c =>
      exact ⟨_, leads_line ((isPlain_constructorSignature (hname hof)).behind hend)⟩
  | prototype id c m =>
      exact ⟨_, leads_lift (isPlain_signature ht hp (hname hof.1)) fun _ hcode =>
        leads_line (hcode.followed hend)⟩
  | layout id c => exact ⟨_, isPlain_structLayout ht hp (hname hof)⟩
  | resource name bytes => exact ⟨_, isPlain_resourceTable name bytes⟩
  | table c k => exact ⟨_, leads_lift (crosses_constTable ht hp) fun _ => leads_line⟩
  | constructor id c => exact ⟨_, isPlain_constructorBody ht hp (hname hof)⟩
  | method id c m => exact ⟨_, isPlain_methodBody ht hp (hname hof.1)⟩

/-- A reader of the item's code finds an empty aggregate exactly if the item declares one. -/
theorem hasEmptyAggregate_code {item : Item} (ht : cx.target = .cFamily d)
    (hp : cx.program.HasTypeNames) (hof : item.Of cx.program)
    (hok : (item.emission cx d).outcome = .ok ()) :
    hasEmptyAggregate (item.code cx d) = item.declaresEmpty := by
  obtain ⟨after, hleads⟩ := leads_emission ht hp hof
  have hsteps : item.emission cx d = ⟨(item.emission cx d).steps, .ok ()⟩ := by rw [← hok]
  exact (hleads _ () hsteps).hasEmptyAggregate_eq

end CFamily.Item

namespace CFamily

open Aggregates

variable {d : Dialect} {p : Program} {o : Options} {files : List OutputFile}

/-- A successful run of a C target leaves one file, made of items. In the code that an item shows
there is an empty aggregate exactly if the item is a resource without bytes, if a list in its
constant is without items, or if one of the lengths it is declared with is zero, be it that of a
field, of a parameter or of a local. Enumerations without values and structures without fields are
never printed as such. -/
theorem hasEmptyAggregate_items (hp : p.HasTypeNames)
    (h : (generate (Target.cFamily d).name p o).files = .ok files) :
    ∃ contents, files = [⟨outputPath (.cFamily d) o.output, contents⟩] ∧
      Spread ((items ⟨p, .cFamily d, none⟩ d).map (Item.text ⟨p, .cFamily d, none⟩ d)) contents ∧
      ∀ item ∈ items ⟨p, .cFamily d, none⟩ d,
        visible (item.text ⟨p, .cFamily d, none⟩ d).toList =
            visible (item.shown ⟨p, .cFamily d, none⟩ d) ∧
          hasEmptyAggregate (item.code ⟨p, .cFamily d, none⟩ d) = item.declaresEmpty := by
  obtain ⟨contents, hfiles, hspread, hitems⟩ := generate_eq_ok h
  refine ⟨contents, hfiles, hspread, fun item hitem => ?_⟩
  obtain ⟨hof, hok⟩ := hitems item hitem
  exact ⟨Item.visible_text rfl hof hok, Item.hasEmptyAggregate_code rfl hp hof hok⟩

/-- An enumeration without values, a class without fields, one with a field of the given length and
a constant list, and a resource. -/
def sampleProgram (length : UInt32) (items : List ConstValue) (bytes : List UInt8) : Program where
  enums := [⟨"Mode", .exported, none, []⟩]
  classes := [⟨"Blank", .exported, none, none,
      [.method ⟨"Run", .exported, none, false, [], .void, []⟩], []⟩,
    ⟨"Cell", .exported, none, none,
      [.field ⟨"marks", .exported, none, .array (.int .int) true (some length), none⟩],
      [⟨"Steps", .exported, none, .array (.int .int) false none, .array items, none⟩]⟩]
  globals := [.enumeration ⟨0⟩, .classDef ⟨0⟩, .classDef ⟨1⟩]
  natives := []
  resources := Resources.empty.insert "logo" bytes

theorem hasEmptyAggregate_items_sample :
    let p := sampleProgram 2 [.int 5] [7]
    p.HasTypeNames ∧ ∃ files, (generate "c" p ⟨⟨"cell"⟩, none⟩).files = .ok files ∧
      ∃ contents, files = [⟨⟨"cell.c"⟩, contents⟩] ∧
        Spread ((items ⟨p, .cFamily .standard, none⟩ .standard).map
          (Item.text ⟨p, .cFamily .standard, none⟩ .standard)) contents ∧
        ∀ item ∈ items ⟨p, .cFamily .standard, none⟩ .standard,
          hasEmptyAggregate (item.code ⟨p, .cFamily .standard, none⟩ .standard) = false := by
  intro p
  have hp : p.HasTypeNames := by
    simp only [p, Program.HasTypeNames, sampleProgram]
    decide
  have hrun : (generate "c" p ⟨⟨"cell"⟩, none⟩).files.toOption.isSome = true := by decide +kernel
  obtain ⟨files, hfiles⟩ := Option.isSome_iff_exists.mp hrun
  have h := Result.eq_ok_of_toOption hfiles
  obtain ⟨contents, rfl, hspread, hitems⟩ := hasEmptyAggregate_items (d := .standard) hp h
  have hpath : outputPath (.cFamily .standard) ⟨"cell"⟩ = ⟨"cell.c"⟩ := by decide
  have hnone : ((items ⟨p, .cFamily .standard, none⟩ .standard).all fun item =>
      !item.declaresEmpty) = true := by
    decide +kernel
  refine ⟨hp, _, h, contents, by rw [hpath], hspread, fun item hitem => ?_⟩
  rw [(hitems item hitem).2]
  simpa using List.all_eq_true.mp hnone item hitem

/-- The field, the list and the resource are printed empty where they are so. The enumeration is
left out, and the structure without fields gets a member. -/
theorem hasEmptyAggregate_items_hollow :
    let p := sampleProgram 0 [] []
    let cx : Context := ⟨p, .cFamily .standard, none⟩
    (generate "c" p ⟨⟨"cell"⟩, none⟩).files.toOption = some [⟨⟨"cell.c"⟩,
      "typedef struct Blank Blank;\ntypedef struct Cell Cell;\n\n" ++
      "void Blank_Run(Blank *self);\n\n" ++
      "struct Blank \x7b\n\tchar unused;\n\x7d;\n\nstruct Cell \x7b\n\tint marks[0];\n\x7d;\n\n" ++
      "static const unsigned char CiResource_logo[] = \x7b\n\x7d;\n\n" ++
      "static const int Cell_STEPS[0] = \x7b  \x7d;\n\n" ++
      "void Blank_Run(Blank *self)\n\x7b\n\x7d\n"⟩] ∧
    ((items cx .standard).filter fun item => hasEmptyAggregate (item.code cx .standard)).map
      (Item.text cx .standard) = ["struct Cell \x7b\n\tint marks[0];\n\x7d;\n",
        "static const unsigned char CiResource_logo[] = \x7b\n\x7d;\n",
        "static const int Cell_STEPS[0] = \x7b  \x7d;\n"] := by
  refine ⟨?_, ?_⟩ <;> decide +kernel

end CFamily

end Emitter
