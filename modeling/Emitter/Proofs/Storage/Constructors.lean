import Emitter.Proofs.Names.Declared
import Emitter.Proofs.Storage.Setup

/-!
# Constructors as they are written

The body of a function that constructs instances, as it stands in a file that is written: first the
lines that set the fields up, then the lines of the constructor.
-/

namespace Emitter

open Layout Program Reading

namespace Emit

/-- An emission in balance that ends its last line adds a text of its own at any level. -/
theorem exists_addsLines {e : Emit Unit} (hok : e.outcome = .ok ()) (hplays : e.Plays)
    (hstay : ∀ step ∈ e.steps, step.staysInFile = true) (hkeeps : e.Keeps) (level : Nat) :
    ∃ text, e.AddsLines level text := by
  have hends : Step.endsLine true e.steps = true := hkeeps e.steps () (by rw [← hok])
  let start : Writer := { Writer.new with indent := level }
  obtain ⟨d, hplay, -, hreturns⟩ := hplays ⟨start, []⟩
  rcases Step.uniform hstay level true with ⟨text, indent, hall⟩ | hnone
  · obtain ⟨notices, hstart⟩ := hall start [] ⟨rfl, rfl⟩
    obtain rfl := Option.some.inj (hplay.symm.trans hstart)
    obtain rfl : indent = level := (hreturns () hok).2.1
    refine ⟨text, hok, fun w notices hw => ?_⟩
    obtain ⟨notices', hadds⟩ := hall w notices hw
    rw [hends] at hadds
    exact ⟨notices', hadds⟩
  · have hnone := hnone start [] ⟨rfl, rfl⟩
    rw [hplay] at hnone
    exact absurd hnone (Option.some_ne_none d)

theorem AddsLines.endsLine {e : Emit Unit} {level : Nat} {text : String}
    (h : e.AddsLines level text) (hstay : ∀ step ∈ e.steps, step.staysInFile = true) :
    EndsLine text := by
  obtain ⟨notices, hplay⟩ := h.plays { Writer.new with indent := level } [] ⟨rfl, rfl⟩
  have haligned := Desk.aligned_of_play hstay hplay fun _ => .inl rfl
  simpa [Writer.further, Writer.new] using haligned rfl

end Emit

/-- Statements that go through add lines at any level. -/
theorem Context.exists_addsLines_statements {cx : Context} {stmts : List Stmt}
    {steps : List Step} (h : cx.statements stmts = ⟨steps, .ok ()⟩) (level : Nat) :
    ∃ text, (cx.statements stmts).AddsLines level text ∧ EndsLine text := by
  have hprints : (cx.statements stmts).Prints cx _ :=
    Context.prints_statements fun s _ => Context.prints_statement s
  have hstay : ∀ step ∈ (cx.statements stmts).steps, step.staysInFile = true := by
    rw [h]
    exact (hprints steps () h).1
  obtain ⟨text, htext⟩ := Emit.exists_addsLines (by rw [h])
    (Context.plays_statements fun s _ => Context.plays_statement s) hstay
    (Context.keeps_statements _) level
  exact ⟨text, htext, htext.endsLine hstay⟩

namespace CFamily

variable {cx : Context} {d : Dialect} {c : ClassDef}

/-- The function that constructs instances of a class. -/
def constructorText (c : ClassDef) (inside : String) : String :=
  (constructorSignature c).text ++ "\n" ++ blockText inside

theorem exists_constructorSignature (c : ClassDef) : ∃ l code,
    constructorSignature c = l :: code ∧ l.text ≠ "" ∧ trimmed l.text = l.text := by
  unfold constructorSignature linkage
  split_ifs
  · exact ⟨.word "static", _, rfl, by decide, by decide⟩
  · exact ⟨.word "void", _, rfl, by decide, by decide⟩

theorem trimmed_constructorText (c : ClassDef) (inside : String) :
    trimmed ("\n" ++ constructorText c inside) = constructorText c inside := by
  obtain ⟨l, code, hsignature, hne, htrimmed⟩ := exists_constructorSignature c
  have htext : constructorText c inside =
      l.text ++ (Code.text code ++ "\n" ++ blockText inside) := by
    simp [constructorText, hsignature, Code.text, String.append_assoc]
  rw [trimmed_newline, htext]
  exact trimmed_append hne htrimmed _

/-- The lines of a constructor are read as its statements. -/
theorem exists_readShape_statements (hnamed : cx.program.Named cx.target) {body : List Stmt}
    (hplain : ∀ s ∈ body, s.everywhere (fun s => s.isNamed && cx.isUnconstructed s) = true)
    (hattached : Stmt.attachedAll body = true) {level : Nat} {text : String}
    (h : (cx.statements body).AddsLines level text) :
    ∃ stmts, cx.shapes? body = some stmts ∧ readShape (blockText text) = some (.block stmts) := by
  have hsteps : cx.statements body = ⟨(cx.statements body).steps, .ok ()⟩ := by rw [← h.outcome]
  obtain ⟨stmts, hshapes, hsettles, hsane, hinline⟩ := Context.exists_printShape_statements
    (fun s hs => Context.exists_printShape hnamed s (hplain s hs)) hsteps
  let start : Writer := { Writer.new with indent := level }
  obtain ⟨notices, hplay⟩ := h.plays start [] ⟨rfl, rfl⟩
  obtain ⟨added, hout, hscan⟩ := exists_out_play hinline hplay
  obtain rfl : text.toList = added := by simpa [start, Writer.new, Writer.further] using hout
  have htext : Settles text.toList (Shape.tokensOf stmts) := fun rest => by
    rw [hscan .between (fun _ => rfl), hsettles]
  have hempty : readShape (blockText "") = some (.block []) := rfl
  have hread := readShape_of_settles htext hsane
    ((Context.attachedAll_eq hshapes fun s _ shape hs =>
      (Context.endsOpen_and_attached_eq s shape hs).2).trans hattached) hempty
  rw [String.append_empty, List.append_nil] at hread
  exact ⟨stmts, hshapes, hread⟩

theorem constructorBody_addsLines (hnamed : cx.program.Named cx.target)
    (ht : cx.target = .cFamily d) (hnames : ∀ f ∈ c.fields, f.IsNamed)
    (hok : (constructorBody cx c).outcome = .ok ()) :
    ∃ text shapes events rest,
      (constructorBody cx c).AddsLines 0 ("\n" ++ constructorText c (text ++ rest)) ∧
      SetsUp cx c.fields text shapes events ∧
      (cx.statements (c.constructor?.getD [])).AddsLines 1 rest := by
  obtain ⟨steps, hbody⟩ : ∃ steps, constructorBody cx c = ⟨steps, .ok ()⟩ :=
    ⟨_, by rw [← hok]⟩
  obtain ⟨heading, hheading, -⟩ := Emit.ofSteps_bind_eq_ok.mp hbody
  obtain ⟨braced, hbraced, -⟩ := Emit.ofSteps_bind_eq_ok.mp hheading
  obtain ⟨inside, hinside, -⟩ := Emit.braced_eq_ok.mp hbraced
  obtain ⟨⟨⟩, first, last, hfields, hstmts, -⟩ := Emit.bind_eq_ok.mp hinside
  obtain ⟨text, shapes, events, hlines, hsets⟩ := exists_setsUp hnamed ht hnames hfields
  obtain ⟨rest, hrest, -⟩ := Context.exists_addsLines_statements hstmts 1
  rw [← hfields] at hlines
  have hsignature : (Emit.line (constructorSignature c)).AddsLines 0
      (Writer.margin 0 ++ ((constructorSignature c).text ++ "\n")) := by
    obtain ⟨l, code, hsignature, hne, -⟩ := exists_constructorSignature c
    rw [hsignature]
    exact Emit.addsLines_line hne
  have hall := Emit.addsLines_newline.seq (hsignature.seq (hlines.seq hrest).braced)
  have hbodyText : "\n" ++ constructorText c (text ++ rest) =
      "\n" ++ (Writer.margin 0 ++ ((constructorSignature c).text ++ "\n") ++
        (Writer.margin 0 ++ "\x7b\n" ++ (text ++ rest) ++ Writer.margin 0 ++ "\x7d\n")) := by
    simp [constructorText, blockText, Writer.margin, String.append_assoc]
  refine ⟨text, shapes, events, rest, ?_, hsets, hrest⟩
  rw [hbodyText]
  exact hall

end CFamily

open CFamily

/-- In a C file that is written, the function that constructs instances of a class goes through the
class's fields in order before it comes to the lines of the constructor. If these can be read on
their own, its body is read as the statements for the fields and those of the constructor. How the
body is read is left open for a constructor with a local that is constructed in turn, or with an
`else` that would be read with another `if` than its own; its lines stand behind those for the
fields all the same. -/
theorem constructor_sets_up {d : Dialect} {p : Program} {o : Options} {files : List OutputFile}
    {id : ClassId} {c : ClassDef} (h : (generate (Target.cFamily d).name p o).files = .ok files)
    (hid : id ∈ p.globalClassIds) (hc : p.classOf id = .ok c)
    (hneeds : p.needsConstruction id = .ok true) (hnamed : p.Named (.cFamily d))
    (hnames : ∀ f ∈ c.fields, f.IsNamed) :
    let cx : Context := ⟨p, .cFamily d, none⟩
    let body := c.constructor?.getD []
    ∃ contents before after text shapes events rest,
      files = [⟨outputPath (.cFamily d) o.output, contents⟩] ∧
      contents = before ++ constructorText c (text ++ rest) ++ after ∧
      SetsUp cx c.fields text shapes events ∧
      (cx.statements body).AddsLines 1 rest ∧
      ((∀ s ∈ body, s.everywhere (fun s => s.isNamed && cx.isUnconstructed s) = true) →
        Stmt.attachedAll body = true →
          ∃ stmts, cx.shapes? body = some stmts ∧
            readShape (blockText (text ++ rest)) = some (.block (shapes ++ stmts))) := by
  intro cx body
  obtain ⟨contents, hfiles, -, hitems⟩ := exists_placed h
  have hconstructs : p.constructs id = true := by rw [Program.constructs, hneeds]; rfl
  have hmem : Item.constructor id c ∈ items cx d :=
    List.mem_append_right _ (List.mem_flatMap.mpr
      ⟨(id, c), mem_resolved.mpr ⟨hid, hc⟩, by simp [cx, hconstructs]⟩)
  obtain ⟨front, back, hsplit⟩ := List.append_of_mem hmem
  obtain ⟨-, hok, before, after, hcontents, -⟩ := hitems front _ back hsplit
  have hok : (constructorBody cx c).outcome = .ok () := hok
  obtain ⟨text, shapes, events, rest, hadds, hsets, hrest⟩ :=
    constructorBody_addsLines hnamed rfl hnames hok
  have htext : Item.text cx d (.constructor id c) = constructorText c (text ++ rest) := by
    change trimmed (constructorBody _ c).text = _
    rw [hadds.text_eq, trimmed_constructorText]
  rw [htext] at hcontents
  refine ⟨contents, before, after, text, shapes, events, rest, hfiles, hcontents, hsets, hrest,
    fun hplain hattached => ?_⟩
  obtain ⟨stmts, hshapes, hread⟩ := exists_readShape_statements hnamed hplain hattached hrest
  exact ⟨stmts, hshapes, hsets.reads rest stmts hread⟩

/-- A class with a value and one with an array of arrays of it, and with a constructor. -/
def Program.grid : Program :=
  ⟨[], [⟨"Cell", .exported, none, none, [.field ⟨"size", .exported, none, .int .int,
        some (.literal (.int 1) (.int .int))⟩], []⟩,
      ⟨"Grid", .exported, none, some [.returnValue none],
        [.field ⟨"count", .exported, none, .int .int, some (.literal (.int 2) (.int .int))⟩,
        .field ⟨"cells", .exported, none,
          .array (.array (.classStorage ⟨0⟩) true (some 2)) true (some 3), none⟩], []⟩],
    [.classDef ⟨0⟩, .classDef ⟨1⟩], [], .empty⟩

theorem Program.grid_named : Program.grid.Named (.cFamily .standard) where
  enums := by simp [grid]
  classes := by decide +kernel

/-- The count is assigned, each of six cells is constructed, and the constructor returns. -/
theorem constructor_sets_up_grid :
    Program.grid.needsConstruction ⟨1⟩ = .ok true ∧
      ∃ c contents before after inside shapes,
        Program.grid.classOf ⟨1⟩ = .ok c ∧
        (generate "c" .grid ⟨⟨"game"⟩, none⟩).files = .ok [⟨⟨"game.c"⟩, contents⟩] ∧
        contents = before ++ constructorText c inside ++ after ∧
        readShape (blockText inside) = some (.block (shapes ++ [.simple [.word "return"]])) ∧
        runAll (some 2147483647) [] shapes = some (.assign ⟨"count", []⟩ [.number "2"] ::
          [[0, 0], [0, 1], [1, 0], [1, 1], [2, 0], [2, 1]].map fun is =>
            .call "Cell_Construct" ⟨"cells", is⟩) := by
  have hneeds : Program.grid.needsConstruction ⟨1⟩ = .ok true := rfl
  have hrun : (generate "c" .grid ⟨⟨"game"⟩, none⟩).files.toOption.isSome = true := by
    decide +kernel
  rcases hfiles : (generate "c" .grid ⟨⟨"game"⟩, none⟩).files with fault | files
  · rw [hfiles] at hrun
    cases hrun
  · let c : ClassDef := Program.grid.classes.get ⟨1, by decide⟩
    have hc : Program.grid.classOf ⟨1⟩ = .ok c := rfl
    have hnames : ∀ f ∈ c.fields, f.IsNamed := by
      intro f hf
      rcases List.mem_pair.mp hf with rfl | rfl
      · exact ⟨by decide, by decide⟩
      · exact ⟨by decide, by simp⟩
    obtain ⟨contents, before, after, text, shapes, events, rest, rfl, htext, hsets, -, hread⟩ :=
      constructor_sets_up (d := .standard) hfiles (List.mem_of_getElem? (i := 1) rfl) hc hneeds
        Program.grid_named hnames
    obtain ⟨stmts, hstmts, hread⟩ := hread (by decide) (by decide)
    obtain rfl := Option.some.inj hstmts
    let cx : Context := ⟨.grid, .cFamily .standard, none⟩
    have htokens : cx.tokens? (.literal (.int 2) (.int .int)) = some [.number "2"] := by
      decide +kernel
    have hcell : cx.program.needsConstruction ⟨0⟩ = .ok true := rfl
    have hname : cx.target.localName (c.fields.get ⟨0, by decide⟩).name = "count" ∧
        cx.target.localName (c.fields.get ⟨1, by decide⟩).name = "cells" := by decide +kernel
    let calls : List Event := [[0, 0], [0, 1], [1, 0], [1, 1], [2, 0], [2, 1]].map fun is =>
      .call "Cell_Construct" ⟨"cells", is⟩
    have hcount : SetUp cx (c.fields.get ⟨0, by decide⟩) [.assign ⟨"count", []⟩ [.number "2"]] := by
      rw [← hname.1]
      exact .assigned rfl rfl htokens
    have hnests : (c.fields.get ⟨1, by decide⟩).ty.Nests ⟨0⟩ [3, 2] :=
      @Ty.Nests.element ⟨0⟩ _ 3 _ (@Ty.Nests.element ⟨0⟩ _ 2 _ .direct)
    have hcells : SetUp cx (c.fields.get ⟨1, by decide⟩) calls := by
      have hconstructed := SetUp.constructed hnests rfl hcell (isRowMajor_rowMajor [3, 2])
      rwa [hname.2] at hconstructed
    have hall : List.Forall₂ (SetUp cx) c.fields [[.assign ⟨"count", []⟩ [.number "2"]], calls] :=
      .cons hcount (.cons hcells .nil)
    have hevents : events = [[.assign ⟨"count", []⟩ [.number "2"]], calls] :=
      List.right_unique_forall₂' (R := SetUp cx) (fun _ _ _ => SetUp.unique) hsets.setUp hall
    have hlengths : ∀ most ∈ some 2147483647, ∀ f ∈ c.fields, ∀ id lengths,
        f.ty.Nests id lengths → ∀ n ∈ lengths, n ≤ most := by
      intro most hmost f hf id lengths hfield n hn
      obtain rfl := Option.some.inj hmost
      rcases List.mem_pair.mp hf with rfl | rfl
      · cases hfield
      · obtain ⟨-, rfl⟩ := hfield.unique hnests
        revert n
        decide
    have hruns := hsets.runs (some 2147483647) hlengths
    rw [hevents] at hruns
    exact ⟨hneeds, c, contents, before, after, text ++ rest, shapes, hc, rfl, htext, hread, hruns⟩

end Emitter
