import Emitter.Proofs.Initializers.Texts
import Emitter.Proofs.Whole.ConstantLines
import Emitter.Proofs.Whole.Outcome

/-!
# Initializers in whole runs

What a successful run leaves is made of the texts of the top-level classes. So every field and local
of them that has room for an explicit initializer gets it printed in one place, and each that has
none is warned of.
-/

namespace Emitter

open Layout Program

namespace Emit

variable {α : Type} {e : Emit Unit}

theorem MadeOf.printsText {parts : List (Emit Unit)} (h : e.MadeOf parts)
    (hok : e.outcome = .ok ()) :
    e.PrintsText e.text := by
  obtain ⟨-, -, text, htext, -⟩ := h () hok
  exact htext.text_eq ▸ htext

theorem printsText_forM {f : α → Emit Unit} {items : List α} (hok : (items.forM f).outcome = .ok ())
    (h : ∀ item ∈ items, (f item).outcome = .ok () → (f item).PrintsText (f item).text) :
    (items.forM f).PrintsText (String.join (items.map fun item => (f item).text)) := by
  induction items with
  | nil =>
      exact ⟨.inl rfl, fun w notices hw => ⟨notices,
        congrArg (fun w => some (Desk.mk w notices)) (Writer.further_empty hw).symm⟩⟩
  | cons item rest ih =>
      obtain ⟨⟨⟩, hitem, hrest⟩ := outcome_bind_eq_ok.mp hok
      obtain ⟨hfirst, hothers⟩ := List.forall_mem_cons.mp h
      rw [List.map_cons, String.join_cons]
      exact (hfirst hitem).bind hitem (ih hrest hothers)

end Emit

namespace Run

/-- A section that goes through has the text of the emission, and all that it leaves behind are the
notices. -/
theorem sectionText_of_printsText {e : Emit Unit} {d d' : Desk} {text : String}
    (hprints : e.outcome = .ok () → e.PrintsText e.text) (hindent : d.writer.indent = 0)
    (h : (sectionText e).run.run d = (.ok text, d')) :
    e.outcome = .ok () ∧ d'.writer = d.writer ∧ text = e.text ∧
      d'.warnings = d.warnings ++ Step.warnings e.steps := by
  obtain ⟨⟨⟩, d₁, hbegin, h⟩ := bind_eq_ok.mp h
  obtain ⟨⟨⟩, d₂, hperform, h⟩ := bind_eq_ok.mp h
  obtain ⟨hplay, hok⟩ := perform_eq_ok.mp hperform
  obtain rfl : ({ d with writer := d.writer.beginSection } : Desk) = d₁ := congrArg Prod.snd hbegin
  have hwarnings := Desk.warnings_play hplay
  obtain ⟨notices, hplay'⟩ := (hprints hok).plays d.writer.beginSection d.notices ⟨hindent, rfl⟩
  obtain rfl : _ = d₂ := Option.some.inj (hplay'.symm.trans hplay)
  obtain ⟨htext, rfl⟩ := Prod.mk.inj h
  refine ⟨hok, ?_, ?_, hwarnings⟩
  · simp [Writer.further, Writer.beginSection, ← hindent]
  · simpa [Writer.further, Writer.beginSection] using (Except.ok.inj htext).symm

end Run

namespace CFamily

open Emit

variable {cx : Context} {d : Dialect}

theorem printsText_includes (ht : cx.target = .cFamily d) (used : List Supplier) :
    (includes d used).PrintsText (includes d used).text := by
  obtain ⟨names, hprints⟩ : ∃ names, (includes d used).Prints cx names := by
    cases d with
    | openCL => exact ⟨_, prints_pure ()⟩
    | standard => exact ⟨_, prints_forM fun h _ => @prints_item cx .standard (.header h) ht trivial⟩
  have hkeeps : (includes d used).Keeps := by
    cases d with
    | openCL => exact keeps_pure ()
    | standard => exact keeps_forM fun h _ => (ends_line _).keeps
  have hdone : includes d used = ⟨_, .ok ()⟩ := congrArg (Emit.mk _) (outcome_includes used)
  exact printsText_text (outcome_includes used) (plays_includes used) (hprints _ () hdone).1 hkeeps

theorem printsText_library (ht : cx.target = .cFamily d) (used : List Supplier) :
    (library d used).PrintsText (library d used).text := by
  have hprints : (library d used).Prints cx [] := by
    cases d with
    | standard => exact prints_pure ()
    | openCL =>
        refine prints_forM_of_plain fun entry _ => ?_
        dsimp only
        split_ifs
        · exact @prints_item cx .openCL (.helper entry.1 entry.2) ht trivial
        · exact prints_pure ()
  have hkeeps : (library d used).Keeps := by
    cases d with
    | standard => exact keeps_pure ()
    | openCL =>
        refine keeps_forM fun entry _ => ?_
        dsimp only
        split_ifs
        · exact @keeps_item cx .openCL (.helper entry.1 entry.2)
        · exact keeps_pure ()
  have hdone : library d used = ⟨_, .ok ()⟩ := congrArg (Emit.mk _) (outcome_library used)
  exact printsText_text (outcome_library used) (plays_library used) (hprints _ () hdone).1 hkeeps

theorem warns_includes (used : List Supplier) : (includes d used).Warns [] := by
  cases d with
  | openCL => exact warns_pure ()
  | standard => exact warns_forM_of_silent fun h _ => warns_line _

theorem warns_library (used : List Supplier) : (library d used).Warns [] := by
  cases d with
  | standard => exact warns_pure ()
  | openCL =>
      refine warns_forM_of_silent fun entry _ => ?_
      dsimp only
      split_ifs
      · exact warns_newline.seq (warns_lines _)
      · exact warns_pure ()

theorem warns_enumeration (e : EnumDef) : (enumeration cx e).Warns [] := by
  unfold enumeration
  split_ifs
  · exact warns_debug (by simp [Notice.level])
  · exact (warns_debug (by simp [Notice.level])).seq (warns_newline.seq ((warns_line _).seq
      ((warns_forM_of_silent fun _ _ => warns_line _).deeper.seq (warns_line _))))

theorem warns_prototypes (c : ClassDef) (constructed : Bool) :
    (prototypes cx d c constructed).Warns [] := by
  have hmethods : Emit.Warns (c.methods.forM fun m => do
      Emit.line ((← (signature cx d c m : Result Code)) ++ [Lexeme.symbol ";"])) [] :=
    warns_forM_of_silent fun m _ => Warns.lift _ fun code _ => warns_line _
  cases constructed with
  | false => exact (warns_pure ()).seq hmethods
  | true => exact (warns_line _).seq hmethods

theorem warns_structLayout (c : ClassDef) : (structLayout cx d c).Warns [] := by
  have hfields : Emit.Warns (c.fields.forM fun f => do
      Emit.line ((← (declaration cx d f.ty (cx.localWord f.name) : Result Code)) ++
        [Lexeme.symbol ";"])) [] :=
    warns_forM_of_silent fun f _ => Warns.lift _ fun code _ => warns_line _
  have hunused : Emit.Warns (if c.fields.isEmpty then
      Emit.line [.word "char", .gap, .word "unused", .symbol ";"] else pure ()) [] := by
    split_ifs
    · exact warns_line _
    · exact warns_pure ()
  exact (warns_debug (by simp [Notice.level])).seq (warns_newline.seq ((warns_line _).seq
    ((hfields.seq hunused).deeper.seq (warns_line _))))

theorem warns_resourceTable (name : String) (bytes : List UInt8) :
    (resourceTable d name bytes).Warns [] := by
  have hrows (rows : List (List UInt8)) : (byteLines rows).Warns [] := by
    induction rows with
    | nil => exact warns_pure ()
    | cons row rest ih =>
        cases rest with
        | nil => exact warns_line _
        | cons next rest => exact (warns_line _).seq ih
  exact warns_newline.seq ((warns_line _).seq ((hrows _).deeper.seq (warns_line _)))

/-- Whatever is declared in front of the bodies warns of nothing. -/
theorem warns_declarations : (declarations cx d).Warns [] := by
  refine (warns_forM_of_silent fun text _ => warns_newline.seq (warns_lines text)).seq ?_
  refine Warns.lift _ fun enums _ => (warns_forM_of_silent fun e _ => warns_enumeration e.2).seq ?_
  refine Warns.lift _ fun classes _ => ?_
  refine (warns_forM_of_silent fun _ _ => warns_forM_of_silent fun _ _ => Warns.lift _ fun _ _ =>
    warns_line _).group.seq ?_
  refine Warns.seq (Warns.group (warns_forM_of_silent fun entry _ => ?_)) ?_
  · dsimp only
    split_ifs
    · exact warns_pure ()
    · exact warns_line _
  refine (warns_forM_of_silent fun entry _ => warns_prototypes entry.1 entry.2).group.seq ?_
  refine Warns.lift _ fun order _ => ?_
  refine (warns_forM_of_silent fun id _ => Warns.lift _ fun c _ => warns_structLayout c).seq ?_
  refine (warns_forM_of_silent fun entry _ => warns_resourceTable entry.1 entry.2).seq ?_
  exact (warns_forM_of_silent fun _ _ => warns_forM_of_silent fun _ _ => Warns.lift _ fun _ _ =>
    warns_line _).group

/-- The classes are printed one after the other. -/
theorem bodies_eq_ok (hok : (bodies cx d).outcome = .ok ()) : bodies cx d =
    cx.program.shownClasses.forM fun entry =>
      classBodies cx d entry.2 (cx.program.constructs entry.1) := by
  rw [bodies_eq] at hok ⊢
  obtain ⟨classes, hclasses, -⟩ := outcome_bind_eq_ok.mp hok
  have hclasses : printedClasses cx = .ok classes := hclasses
  rw [hclasses]
  change classes.forM _ = _
  rw [printedClasses_eq hclasses, Emit.forM_map]

theorem warns_bodies :
    (bodies cx d).Warns (dropped cx.target (cx.program.declared (.cFamily d))) := by
  intro steps _ hsteps
  rw [bodies_eq_ok (by rw [hsteps])] at hsteps
  have hall := warns_forM fun entry (hentry : entry ∈ cx.program.shownClasses) =>
    warns_classBodies (d := d) (mem_resolved.mp hentry).2
  rw [declared, dropped_flatMap]
  exact hall steps () hsteps

theorem printedClass_eq (ht : cx.target = .cFamily d) (o : Options) (id : ClassId) (c : ClassDef) :
    cx.printedClass o id c = classBodies cx d c (cx.program.constructs id) := by
  simp only [Context.printedClass, ht]

/-- In bodies that are printed every listed class is, and its text stands in them once for each time
it is listed. -/
theorem text_bodies (ht : cx.target = .cFamily d) (o : Options)
    (hok : (bodies cx d).outcome = .ok ()) :
    (∀ entry ∈ cx.program.shownClasses, (cx.printedClass o entry.1 entry.2).outcome = .ok ()) ∧
      (bodies cx d).text = String.join (cx.program.shownClasses.map fun entry =>
        (cx.printedClass o entry.1 entry.2).text) := by
  have hbodies : bodies cx d = cx.program.shownClasses.forM fun entry =>
      cx.printedClass o entry.1 entry.2 := by
    simp only [bodies_eq_ok hok, printedClass_eq ht]
  rw [hbodies] at hok ⊢
  refine ⟨outcome_of_forM hok, (printsText_forM hok fun entry hentry hclass => ?_).text_eq⟩
  exact Context.printsText_printedClass (mem_resolved.mp hentry).2 hclass

/-- A run that goes through writes one file with the texts of the sections, and warns of what the
bodies warn of. -/
theorem sections_of_assemble (ht : cx.target = .cFamily d) {path : Path} {desk : Desk}
    (h : (assemble cx d path).run.run ⟨.new, []⟩ = (.ok (), desk)) :
    (bodies cx d).outcome = .ok () ∧
      (∃ used, desk.writer.files = [⟨path, joinSegments [(includes d used).text,
        (declarations cx d).text, (library d used).text, (bodies cx d).text]⟩]) ∧
      desk.warnings = dropped cx.target (cx.program.declared cx.target) := by
  obtain ⟨bodyText, d₁, hbody, h⟩ := Run.bind_eq_ok.mp h
  obtain ⟨declarationText, d₂, hdeclaration, h⟩ := Run.bind_eq_ok.mp h
  obtain ⟨libraryText, d₃, hlibrary, h⟩ := Run.bind_eq_ok.mp h
  obtain ⟨includeText, d₄, hinclude, h⟩ := Run.bind_eq_ok.mp h
  obtain ⟨⟨⟩, d₅, hopen, h⟩ := Run.bind_eq_ok.mp h
  obtain ⟨⟨⟩, d₆, hwrite, hclose⟩ := Run.bind_eq_ok.mp h
  obtain ⟨hok, hd₁, rfl, hwarnings₁⟩ :=
    Run.sectionText_of_printsText (laysOut_bodies ht).printsText rfl hbody
  obtain ⟨hok', hd₂, rfl, hwarnings₂⟩ := Run.sectionText_of_printsText
    (laysOut_declarations ht).printsText (by rw [hd₁]; rfl) hdeclaration
  obtain ⟨hlibraryOk, hd₃, rfl, hwarnings₃⟩ := Run.sectionText_of_printsText
    (fun _ => printsText_library ht _) (by rw [hd₂, hd₁]; rfl) hlibrary
  obtain ⟨hincludeOk, hd₄, rfl, hwarnings₄⟩ := Run.sectionText_of_printsText
    (fun _ => printsText_includes ht _) (by rw [hd₃, hd₂, hd₁]; rfl) hinclude
  obtain ⟨hopen, -⟩ := Run.perform_eq_ok.mp hopen
  obtain ⟨hclose, -⟩ := Run.perform_eq_ok.mp hclose
  refine ⟨hok, ⟨(bodies cx d).suppliers ++ (declarations cx d).suppliers, ?_⟩, ?_⟩
  · have hwriter : d₄.writer = .new := by rw [hd₄, hd₃, hd₂, hd₁]
    obtain ⟨w, notices⟩ := d₄
    obtain rfl : w = .new := hwriter
    obtain rfl : _ = d₅ := Option.some.inj hopen
    obtain rfl : _ = d₆ := congrArg Prod.snd hwrite
    obtain rfl : _ = desk := Option.some.inj hclose
    exact congrArg (fun text => [OutputFile.mk path text]) String.empty_append
  · have hdone {e : Emit Unit} {ws : List Notice} (hwarns : e.Warns ws) (hok : e.outcome = .ok ()) :
        Step.warnings e.steps = ws := hwarns e.steps () (by rw [← hok])
    have hwritten : d₆.warnings = d₅.warnings := by
      obtain rfl : _ = d₆ := congrArg Prod.snd hwrite
      rfl
    rw [Desk.warnings_play hclose, hwritten, Desk.warnings_play hopen, hwarnings₄, hwarnings₃,
      hwarnings₂, hwarnings₁, hdone warns_bodies hok, hdone warns_declarations hok',
      hdone (warns_library _) hlibraryOk, hdone (warns_includes _) hincludeOk, ht]
    simp [Emit.ofSteps, Step.warning, Notice.level, Desk.warnings]

end CFamily

namespace Program

variable {p : Program}

/-- The class that a top-level symbol stands for, if it stands for one. -/
def shownClass? (p : Program) : SymbolId → Option (ClassId × ClassDef)
  | .enumeration _ => none
  | .classDef id => (p.classes[id.index.toNat]?).map (id, ·)

theorem shownClasses_eq_filterMap : p.shownClasses = p.globals.filterMap p.shownClass? := by
  rw [shownClasses, resolved, globalClassIds, List.filterMap_filterMap]
  exact List.filterMap_congr fun id _ => by cases id <;> rfl

theorem shownClasses_mapValues (f : Expr → Expr) : (p.mapValues f).shownClasses =
    p.shownClasses.map fun entry => (entry.1, entry.2.mapValues f) := by
  have hids : (p.mapValues f).globalClassIds = p.globalClassIds := rfl
  rw [shownClasses, hids, shownClasses, resolved, resolved, List.map_filterMap]
  refine List.filterMap_congr fun id _ => ?_
  rw [mapValues, List.getElem?_map]
  cases p.classes[id.index.toNat]? <;> rfl

theorem declared_eq_flatMap (t : Target) : p.declared t =
    p.globals.flatMap fun id => (p.shownClass? id).toList.flatMap fun entry =>
      entry.2.declared t := by
  rw [declared, shownClasses_eq_filterMap, List.filterMap_eq_flatMap_toList, List.flatMap_assoc]

end Program

namespace ActionScript

open Emit

variable {cx : Context} {place : Placement}

theorem warns_classFile {ws : List Notice} {inside : Emit Unit} (name : String)
    (visibility : Visibility) (h : inside.Warns ws) :
    (classFile place name visibility inside).Warns ws := by
  have hlines := (warns_classLines place name visibility h).seq
    (warns_ofSteps [.closeFile])
  have hfile := (warns_ofSteps [.openFile (place.directory.join ⟨name ++ ".as"⟩)]).seq hlines
  rw [classFile_eq]
  simpa [Step.warning] using hfile

theorem warns_symbolFile (ht : cx.target = .actionScript) (id : SymbolId) :
    (symbolFile cx place id).Warns (dropped .actionScript
      ((cx.program.shownClass? id).toList.flatMap fun entry =>
        entry.2.declared .actionScript)) := by
  obtain ⟨p, t, current⟩ := cx
  obtain rfl : t = .actionScript := ht
  cases id with
  | enumeration id =>
      have hlines (e : EnumDef) : (enumeratorLines e).Warns [] :=
        warns_forM_of_silent fun entry _ => warns_line _
      exact Warns.lift _ fun e _ => (warns_debug (by simp [Notice.level])).seq
        (warns_classFile e.name e.visibility (hlines e))
  | classDef id =>
      refine Warns.lift _ fun c hc => ?_
      have hclass : p.classes[id.index.toNat]? = some c := Context.classOf_eq_ok hc
      have hcontent := @warns_contentLines ⟨p, .actionScript, some id⟩ c
      simp only [shownClass?, hclass, Option.map_some, Option.toList_some, List.flatMap_singleton]
      exact (warns_debug (by simp [Notice.level])).seq
        (warns_classFile c.name c.visibility hcontent)

theorem warns_files (ht : cx.target = .actionScript) : (files cx place).Warns
    (dropped .actionScript (cx.program.declared .actionScript)) := by
  have hsymbols : (symbolFiles cx place).Warns
      (dropped .actionScript (cx.program.declared .actionScript)) := by
    have hall : (cx.program.globals.forM (symbolFile cx place)).Warns
        (dropped .actionScript (cx.program.declared .actionScript)) := by
      rw [declared_eq_flatMap, dropped_flatMap]
      exact warns_forM fun id _ => warns_symbolFile ht id
    have heq : symbolFiles cx place = (do
        if !cx.program.natives.isEmpty then (cx.unsupported .topLevelNatives : Result Unit)
        cx.program.globals.forM (symbolFile cx place)) := rfl
    rw [heq]
    dsimp only
    split_ifs
    · exact Warns.lift _ fun _ _ => hall
    · exact hall
  have hhelper (used : List Supplier) : (helperFile place used).Warns [] := by
    have hlines (texts : List String) : (separatedLines texts).Warns [] := by
      induction texts with
      | nil => exact warns_pure ()
      | cons text rest ih =>
          cases rest with
          | nil => exact warns_lines text
          | cons next rest => exact (warns_lines text).seq (warns_newline.seq ih)
    unfold helperFile
    dsimp only
    split_ifs
    · exact warns_pure ()
    · exact (warns_debug (by simp [Notice.level])).seq (warns_classFile _ _ (hlines _))
  have hall := hsymbols.seq (hhelper (symbolFiles cx place).suppliers)
  rwa [List.append_nil] at hall

end ActionScript

/-! What a run leaves is written down here as a function of the texts of the classes, to which the
frames of all classes are then put. -/

/-- The helper class, if one of its functions is among what supplies the names in the other
files. -/
def ActionScript.helperUnits (place : ActionScript.Placement) (used : List Supplier) :
    List (String × String) :=
  let needed := ActionScript.helperTexts.filter fun entry => .helper entry.1 ∈ used
  if needed.isEmpty then []
  else [("Ci", ActionScript.helperClassText place.package (needed.map Prod.snd))]

namespace Program

variable {p : Program} {t : Target} {o : Options} {used : List Supplier}

/-- The class that a top-level symbol is printed as in ActionScript, with the text of its file. -/
def unit? (p : Program) (place : ActionScript.Placement) (classText : ClassId → String) :
    SymbolId → Option (String × String)
  | .enumeration id => ActionScript.symbolUnit ⟨p, .actionScript, none⟩ place (.enumeration id)
  | .classDef id => (p.classes[id.index.toNat]?).map fun c => (c.name, classText id)

/-- What a run leaves: in the C family one file, where the texts of the top-level classes follow
headers, declarations and helpers; in ActionScript a file for each top-level symbol, and the helper
class. -/
def output (p : Program) (t : Target) (o : Options) (used : List Supplier)
    (classText : ClassId → String) : List OutputFile :=
  match t with
  | .cFamily d => [⟨CFamily.outputPath t o.output, CFamily.joinSegments [
      (CFamily.includes d used).text, (CFamily.declarations ⟨p, t, none⟩ d).text,
      (CFamily.library d used).text,
      String.join (p.shownClasses.map fun entry => classText entry.1)]⟩]
  | .actionScript =>
    let place : ActionScript.Placement := ⟨o.output, o.package⟩
    (p.globals.filterMap (p.unit? place classText) ++ ActionScript.helperUnits place used).map
      place.file

theorem output_congr {text text' : ClassId → String}
    (h : ∀ entry ∈ p.shownClasses, text entry.1 = text' entry.1) :
    p.output t o used text = p.output t o used text' := by
  cases t with
  | cFamily d =>
      have hmap : (p.shownClasses.map fun entry => text entry.1) =
          p.shownClasses.map fun entry => text' entry.1 := List.map_congr_left h
      simp only [output, hmap]
  | actionScript =>
      have hunits (place : ActionScript.Placement) : p.globals.filterMap (p.unit? place text) =
          p.globals.filterMap (p.unit? place text') := by
        refine List.filterMap_congr fun id hid => ?_
        cases id with
        | enumeration id => rfl
        | classDef id =>
            cases hclass : p.classes[id.index.toNat]? with
            | none => simp only [unit?, hclass, Option.map_none]
            | some c =>
                have hentry : (id, c) ∈ p.shownClasses := by
                  rw [shownClasses_eq_filterMap]
                  exact List.mem_filterMap.mpr ⟨_, hid, by simp [shownClass?, hclass]⟩
                simp only [unit?, hclass, Option.map_some, h _ hentry]
      simp only [output, hunits]

/-- Whatever the initializers are, the same is left around the texts of the classes. -/
theorem output_mapValues (f : Expr → Expr) (classText : ClassId → String) :
    (p.mapValues f).output t o used classText = p.output t o used classText := by
  cases t with
  | cFamily d =>
      have hdeclarations : CFamily.declarations ⟨p.mapValues f, .cFamily d, none⟩ d =
          CFamily.declarations ⟨p, .cFamily d, none⟩ d :=
        @CFamily.declarations_mapValues ⟨p, .cFamily d, none⟩ d f
      simp only [output, hdeclarations, shownClasses_mapValues, List.map_map]
      rfl
  | actionScript =>
      have hunit (place : ActionScript.Placement) :
          (p.mapValues f).unit? place classText = p.unit? place classText := by
        funext id
        cases id with
        | enumeration id => rfl
        | classDef id =>
            simp only [unit?, mapValues, List.getElem?_map, Option.map_map]
            rfl
      simp only [output, hunit]
      rfl

end Program

section Generate

variable {t : Target} {p : Program} {o : Options} {files : List OutputFile}

/-- A successful run ends on a desk with its files, and its warnings are those given there. -/
theorem run_of_generate (h : (generate t.name p o).files = .ok files) :
    ∃ desk, (Backend.emission t p o).run.run ⟨.new, []⟩ = (.ok (), desk) ∧
      files = desk.writer.files ∧
        (generate t.name p o).warnings = desk.warnings.map Notice.message := by
  have hname : Backend.ofName? t.name = .ok ⟨t, .new⟩ := by
    rcases t with _ | d
    · rfl
    · cases d <;> rfl
  simp only [generate, hname, Backend.run] at h ⊢
  rcases hrun : (Backend.emission t p o).run.run ⟨.new, []⟩ with ⟨fault | ⟨⟩, desk⟩
  · simp [hrun] at h
  · rw [hrun] at h
    exact ⟨desk, rfl, (Except.ok.inj h).symm, rfl⟩

theorem output_of_generate_cFamily {d : Dialect}
    (h : (generate (Target.cFamily d).name p o).files = .ok files) :
    (∀ entry ∈ p.shownClasses,
      ((⟨p, .cFamily d, none⟩ : Context).printedClass o entry.1 entry.2).outcome = .ok ()) ∧
    (∃ used, files = p.output (.cFamily d) o used (Context.classText ⟨p, .cFamily d, none⟩ o)) ∧
    (generate (Target.cFamily d).name p o).warnings =
      (dropped (.cFamily d) (p.declared (.cFamily d))).map Notice.message := by
  obtain ⟨desk, hrun, rfl, hwarnings⟩ := run_of_generate h
  obtain ⟨hok, ⟨used, hfiles⟩, hdropped⟩ :=
    @CFamily.sections_of_assemble ⟨p, .cFamily d, none⟩ d rfl _ _ hrun
  obtain ⟨hclasses, htext⟩ := @CFamily.text_bodies ⟨p, .cFamily d, none⟩ d rfl o hok
  have htexts : (p.shownClasses.map fun entry =>
      ((⟨p, .cFamily d, none⟩ : Context).printedClass o entry.1 entry.2).text) =
        p.shownClasses.map fun entry => Context.classText ⟨p, .cFamily d, none⟩ o entry.1 :=
    List.map_congr_left fun entry hentry =>
      (@Context.classText_eq ⟨p, .cFamily d, none⟩ _ _ _ (mem_resolved.mp hentry).2).symm
  refine ⟨hclasses, ⟨used, ?_⟩, by rw [hwarnings, hdropped]⟩
  rw [hfiles, htext, output, ← htexts]

theorem output_of_generate_actionScript (h : (generate "as" p o).files = .ok files) :
    (∀ entry ∈ p.shownClasses,
      ((⟨p, .actionScript, none⟩ : Context).printedClass o entry.1 entry.2).outcome = .ok ()) ∧
    (∃ used, files = p.output .actionScript o used (Context.classText ⟨p, .actionScript, none⟩ o)) ∧
    (generate "as" p o).warnings =
      (dropped .actionScript (p.declared .actionScript)).map Notice.message := by
  obtain ⟨desk, hrun, hfiles, hwarnings⟩ := run_of_generate (t := .actionScript) h
  obtain ⟨hplay, hok⟩ := Run.perform_eq_ok.mp hrun
  let cx : Context := ⟨p, .actionScript, none⟩
  let place : ActionScript.Placement := ⟨o.output, o.package⟩
  have hunits : p.globals.filterMap (ActionScript.symbolUnit cx place) =
      p.globals.filterMap (p.unit? place (cx.classText o)) := by
    refine List.filterMap_congr fun id _ => ?_
    cases id with
    | enumeration id => rfl
    | classDef id =>
        cases hclass : p.classes[id.index.toNat]? with
        | none => simp only [ActionScript.symbolUnit, unit?, cx, hclass, Option.map_none]
        | some c =>
            have htext := @Context.classText_eq cx o id c (classOf_eq_ok_iff.mpr hclass)
            rw [ActionScript.symbolUnit, unit?, hclass, Option.map_some, Option.map_some, htext]
            rfl
  refine ⟨fun entry hentry => ?_, ⟨(p.globals.flatMap (ActionScript.symbolNames cx)).filterMap
    PrintedName.supplier?, ?_⟩, ?_⟩
  · obtain ⟨hid, hc⟩ := mem_resolved.mp hentry
    obtain ⟨s, hs, hclass⟩ := List.mem_filterMap.mp hid
    cases s with
    | enumeration id => cases hclass
    | classDef id =>
        obtain rfl := Option.some.inj hclass
        exact (ActionScript.outcome_classLines ..).trans (ActionScript.outcome_contentLines h hs hc)
  · rw [ActionScript.generate_eq_ok h, ActionScript.units, hunits]
    rfl
  · have hwarns : Step.warnings (ActionScript.files cx place).steps =
        dropped .actionScript (p.declared .actionScript) :=
      ActionScript.warns_files rfl _ () (congrArg (Emit.mk _) hok)
    have hdesk := Desk.warnings_play hplay
    rw [hwarns] at hdesk
    exact hwarnings.trans (congrArg _ hdesk)

theorem output_of_generate (h : (generate t.name p o).files = .ok files) :
    (∀ entry ∈ p.shownClasses,
      ((⟨p, t, none⟩ : Context).printedClass o entry.1 entry.2).outcome = .ok ()) ∧
    (∃ used, files = p.output t o used (Context.classText ⟨p, t, none⟩ o)) ∧
    (generate t.name p o).warnings = (dropped t (p.declared t)).map Notice.message := by
  cases t with
  | actionScript => exact output_of_generate_actionScript h
  | cFamily d => exact output_of_generate_cFamily h

end Generate

/-- Initializers in a run. For each class there is one frame, with as many places as there are
fields and locals in it that have an explicit initializer and room for it. Whatever the initializers
of the program are replaced by, a run that goes through leaves these frames, the frame of each
listed class once for each time it is listed, with the code of each initializer in its place and
nothing of the others. A run warns of each of the others, by the name of its declaration and in the
order of what it prints, and of nothing else. -/
theorem initializers_of_generate (t : Target) (p : Program) (o : Options) :
    (∃ sheet : ClassId → List (Option Char),
      (∀ entry ∈ p.shownClasses,
        places (sheet entry.1) = (initialValues (entry.2.declared t)).length) ∧
      ∀ f files, (generate t.name (p.mapValues f) o).files = .ok files →
        ∃ (codes : ClassId → List Code) (used : List Supplier),
          (∀ entry ∈ p.shownClasses, (initialValues (entry.2.declared t)).mapM (fun e =>
            ((⟨p, t, none⟩ : Context).inClass entry.1).code (f e)) = .ok (codes entry.1)) ∧
          files = p.output t o used fun id =>
            String.ofList (fill (sheet id) ((codes id).map initialText))) ∧
    ∀ files, (generate t.name p o).files = .ok files →
      (generate t.name p o).warnings = (dropped t (p.declared t)).map Notice.message := by
  let cx : Context := ⟨p, t, none⟩
  refine ⟨?_, fun files h => (output_of_generate h).2.2⟩
  have hsheets (id : ClassId) := cx.exists_sheet o id
  choose sheet hsheet using hsheets
  refine ⟨sheet, fun entry hentry => (hsheet _ _ (mem_resolved.mp hentry).2).1, fun f files h => ?_⟩
  obtain ⟨hok, ⟨used, hfiles⟩, -⟩ := output_of_generate h
  have hclasses : ∀ id, ∃ codes : List Code, ∀ c, (id, c) ∈ p.shownClasses →
      (initialValues (c.declared t)).mapM (fun e => (cx.inClass id).code (f e)) = .ok codes ∧
        (cx.mapValues f).classText o id =
          String.ofList (fill (sheet id) (codes.map initialText)) := by
    intro id
    by_cases hid : ∃ c, (id, c) ∈ p.shownClasses
    · obtain ⟨c, hc⟩ := hid
      have hfound := (mem_resolved.mp hc).2
      have hmapped : (id, c.mapValues f) ∈ (p.mapValues f).shownClasses := by
        rw [shownClasses_mapValues]
        exact List.mem_map.mpr ⟨_, hc, rfl⟩
      obtain ⟨codes, hcodes, htext⟩ := (hsheet id c hfound).2 f (hok (id, c.mapValues f) hmapped)
      refine ⟨codes, fun c' hc' => ?_⟩
      obtain rfl := Except.ok.inj (hfound.symm.trans (mem_resolved.mp hc').2)
      exact ⟨hcodes, htext⟩
    · exact ⟨[], fun c hc => absurd ⟨c, hc⟩ hid⟩
  choose codes hcodes using hclasses
  refine ⟨codes, used, fun entry hentry => (hcodes _ _ hentry).1, ?_⟩
  rw [hfiles, output_mapValues]
  exact output_congr fun entry hentry => (hcodes _ _ hentry).2

/-- A class with a field and a local in the head of a loop that have values, and a field and a local
deep in a method that have room for none. -/
def ledger : Program :=
  let number (n : Int64) : Expr := .literal (.int n) (.int .int)
  let rows : Ty := .array (.int .int) true (some 4)
  let empty : Expr := .literal .null .null
  ⟨[], [⟨"Ledger", .exported, none, none,
    [.field ⟨"Total", .exported, none, .int .int, some (number 7)⟩,
      .field ⟨"Rows", .exported, none, rows, some empty⟩,
      .method ⟨"Sum", .exported, none, true, [], .void,
        [.forLoop (some (.declare ⟨"n", .int .int, some (number 3)⟩)) none none
          (.block [.declare ⟨"rows", rows, some empty⟩, .breakLoop])]⟩], []⟩],
    [.classDef ⟨0⟩], [], .empty⟩

set_option maxRecDepth 20000 in
theorem initializers_of_generate_ledger : ∃ files,
    (generate "c" ledger ⟨⟨"out"⟩, none⟩).files = .ok files ∧
    ∃ (sheet : ClassId → List (Option Char)) (codes : ClassId → List Code) (used : List Supplier),
      places (sheet ⟨0⟩) = 2 ∧ codes ⟨0⟩ = [[.number "7"], [.number "3"]] ∧
      files = ledger.output (.cFamily .standard) ⟨⟨"out"⟩, none⟩ used (fun id =>
        String.ofList (fill (sheet id) ((codes id).map initialText))) ∧
      (generate "c" ledger ⟨⟨"out"⟩, none⟩).warnings =
        ["c: `Ledger.Rows` is constructed by its type; explicit initializer dropped",
          "c: `rows` is constructed by its type; explicit initializer dropped"] := by
  have hrun : (generate "c" ledger ⟨⟨"out"⟩, none⟩).files.toOption.isSome = true := by decide
  obtain ⟨files, hfiles⟩ := Option.isSome_iff_exists.mp hrun
  have hfiles := Result.eq_ok_of_toOption hfiles
  obtain ⟨⟨sheet, hplaces, hsheet⟩, hwarnings⟩ :=
    initializers_of_generate (.cFamily .standard) ledger ⟨⟨"out"⟩, none⟩
  obtain ⟨codes, used, hcodes, houtput⟩ := hsheet id files ((mapValues_id ledger).symm ▸ hfiles)
  have hentry : (⟨0⟩, ledger.classes[0]) ∈ ledger.shownClasses := List.mem_singleton_self _
  refine ⟨files, hfiles, sheet, codes, used, hplaces _ hentry, ?_, houtput, ?_⟩
  · exact (Except.ok.inj (hcodes _ hentry)).symm
  · exact (hwarnings files hfiles).trans (by decide)

/-- Two classes, one of which holds the other by value, with the top-level symbols given. -/
def boxed (globals : List SymbolId) : Program :=
  ⟨[], [⟨"In", .exported, none, none,
      [.field ⟨"n", .exported, none, .int .int, some (.literal (.int 5) (.int .int))⟩], []⟩,
    ⟨"Out", .exported, none, none,
      [.field ⟨"x", .exported, none, .classStorage ⟨0⟩, none⟩], []⟩],
    globals, [], .empty⟩

/-- The lexemes of the declarations and bodies in the file of the C target. -/
def boxedCode (globals : List SymbolId) : Code :=
  let cx : Context := ⟨boxed globals, .cFamily .standard, none⟩
  ((CFamily.declarations cx .standard).steps ++ (CFamily.bodies cx .standard).steps).flatMap
    Step.code

set_option maxRecDepth 20000 in
/-- A class that is only held by another is laid out, but the initializer of its field is not
printed, and there is no warning. That of a class that is listed twice is printed twice. -/
theorem generate_boxed :
    ((generate "c" (boxed [.classDef ⟨1⟩]) ⟨⟨"f"⟩, none⟩).files.toOption.isSome = true ∧
      (generate "c" (boxed [.classDef ⟨1⟩]) ⟨⟨"f"⟩, none⟩).warnings = [] ∧
      [Lexeme.word "int", .gap, .word "n", .symbol ";"] <:+: boxedCode [.classDef ⟨1⟩] ∧
      Lexeme.number "5" ∉ boxedCode [.classDef ⟨1⟩]) ∧
    (generate "c" (boxed [.classDef ⟨0⟩, .classDef ⟨0⟩])
      ⟨⟨"f"⟩, none⟩).files.toOption.isSome = true ∧
      (boxedCode [.classDef ⟨0⟩, .classDef ⟨0⟩]).count (.number "5") = 2 := by
  decide

end Emitter
