import Emitter.Generate
import Emitter.Proofs.Whole.Statements

/-!
# Printing whole programs

The parts of the printed files are steady, so a run on a whole program ends with its files or is
refused.
-/

namespace Emitter

open Layout Program Text

namespace CFamily

variable {cx : Context} {d : Dialect}

theorem proper_signature (hp : cx.program.Whole) {c : ClassDef} (hc : c ∈ cx.program.classes)
    {m : MethodDef} (hm : m ∈ c.methods) : Proper (signature cx d c m) := by
  obtain ⟨hreturn, hparams, -⟩ := hp.method hc hm
  have hreturn : Proper (typeCode cx d m.returnType) := proper_typeCode hreturn
  have hparams : Proper (m.params.mapM fun p => declaration cx d p.ty (cx.localWord p.name)) :=
    proper_mapM fun param hparam => proper_declaration _ (hparams param hparam)
  simp [signature, hreturn, hparams]

theorem steady_fieldSetup (hp : cx.program.Whole) {c : ClassDef} (hc : c ∈ cx.program.classes)
    {f : FieldDef} (hf : f ∈ c.fields) : (fieldSetup cx c f).Steady := by
  obtain ⟨hty, hvalue⟩ := hp.field hc hf
  unfold fieldSetup
  split
  case h_1 e _ hsome =>
    exact Emit.Steady.bind (Context.steady_inline hp (hvalue e hsome)) fun _ _ =>
      Emit.steady_line _
  case h_2 =>
    have hcalls := steady_constructCalls hp 0 (selfField cx f) hty
    split_ifs
    · exact Emit.steady_seq (Emit.steady_note _) hcalls
    · exact hcalls

theorem steady_constructorBody (hp : cx.program.Whole) {c : ClassDef}
    (hc : c ∈ cx.program.classes) : (constructorBody cx c).Steady := by
  have hfields : (c.fields.forM (fieldSetup cx c)).Steady :=
    Emit.steady_forM fun f hf => steady_fieldSetup hp hc hf
  have hstmts : (cx.statements (c.constructor?.getD [])).Steady :=
    Context.steady_statements fun s hs => Context.steady_statement hp (hp.constructor hc s hs)
  exact Emit.steady_seq Emit.steady_newline
    (Emit.steady_seq (Emit.steady_line _) (Emit.steady_seq hfields hstmts).braced)

theorem steady_methodBody (hp : cx.program.Whole) {c : ClassDef} (hc : c ∈ cx.program.classes)
    {m : MethodDef} (hm : m ∈ c.methods) : (methodBody cx d c m).Steady := by
  refine Emit.steady_seq (Emit.steady_note _) (Emit.steady_seq Emit.steady_newline ?_)
  refine Emit.Steady.bind (by simpa using proper_signature hp hc hm) fun _ _ => ?_
  exact Emit.steady_seq (Emit.steady_line _) (Context.steady_body hp (hp.method hc hm).2.2)

/-- The classes of the top-level symbols are there, and so is what their fields hold. -/
theorem exists_printedClasses (hp : cx.program.Whole) : ∃ classes,
    printedClasses cx = .ok classes ∧ ∀ entry ∈ classes, entry.1 ∈ cx.program.classes := by
  obtain ⟨entries, hentries, hmem⟩ := hp.globalClasses
  obtain ⟨classes, hclasses, hall⟩ := exists_mapM_ok
    (f := fun (entry : ClassId × ClassDef) => do
      return (entry.2, ← cx.program.needsConstruction entry.1))
    (Q := fun entry => entry.1 ∈ cx.program.classes) fun entry hentry => by
      obtain ⟨constructed, h⟩ := hp.needsConstruction (hmem entry hentry).1
      exact ⟨(entry.2, constructed), by simp [h, bind, Except.bind, pure, Except.pure],
        (hmem entry hentry).2⟩
  refine ⟨classes, ?_, hall⟩
  unfold printedClasses
  rw [hentries]
  exact congrArg lookedUp hclasses

theorem steady_bodies (hp : cx.program.Whole) : (bodies cx d).Steady := by
  obtain ⟨classes, hclasses, hmem⟩ := exists_printedClasses hp
  unfold bodies
  refine Emit.Steady.bind (by simp [hclasses]) fun classes' h => ?_
  obtain rfl : classes = classes' := Except.ok.inj (hclasses.symm.trans h)
  refine Emit.steady_forM fun (c, constructed) hentry => ?_
  have hc : c ∈ cx.program.classes := hmem _ hentry
  have hmethods : (c.methods.forM (methodBody cx d c)).Steady :=
    Emit.steady_forM fun m hm => steady_methodBody hp hc hm
  cases constructed with
  | false => exact Emit.steady_seq (Emit.steady_pure ()) hmethods
  | true => exact Emit.steady_seq (steady_constructorBody hp hc) hmethods

theorem steady_enumeration (e : EnumDef) : (enumeration cx e).Steady := by
  unfold enumeration
  refine Emit.steady_ite (fun _ => Emit.steady_note _) fun _ => ?_
  refine Emit.steady_seq (Emit.steady_note _) (Emit.steady_seq Emit.steady_newline ?_)
  refine Emit.steady_seq (Emit.steady_line _) (Emit.steady_seq ?_ (Emit.steady_line _))
  exact Emit.Steady.deeper (Emit.steady_forM fun _ _ => Emit.steady_line _)

theorem steady_macroLine (hp : cx.program.Whole) {c : ClassDef} (hc : c ∈ cx.program.classes)
    {k : ConstDef} (hk : k ∈ c.consts) : (macroLine cx c k).Steady := by
  have h := hp.const hc hk
  simp only [ConstDef.mentions, resolves_append] at h
  exact Emit.Steady.bind (by simpa using Context.proper_constValue h.2) fun _ _ =>
    Emit.steady_line _

theorem steady_prototypes (hp : cx.program.Whole) {c : ClassDef} (hc : c ∈ cx.program.classes)
    (constructed : Bool) : (prototypes cx d c constructed).Steady := by
  have hmethods : Emit.Steady (c.methods.forM fun m => do
      Emit.line ((← (signature cx d c m : Result Code)) ++ [Lexeme.symbol ";"])) :=
    Emit.steady_forM fun m hm =>
      Emit.Steady.bind (by simpa using proper_signature hp hc hm) fun _ _ => Emit.steady_line _
  cases constructed with
  | false => exact Emit.steady_seq (Emit.steady_pure ()) hmethods
  | true => exact Emit.steady_seq (Emit.steady_line _) hmethods

theorem steady_structLayout (hp : cx.program.Whole) {c : ClassDef}
    (hc : c ∈ cx.program.classes) : (structLayout cx d c).Steady := by
  have hfields : Emit.Steady (c.fields.forM fun f => do
      Emit.line ((← (declaration cx d f.ty (cx.localWord f.name) : Result Code)) ++
        [Lexeme.symbol ";"])) :=
    Emit.steady_forM fun f hf =>
      Emit.Steady.bind (by simpa using proper_declaration _ (hp.field hc hf).1) fun _ _ =>
        Emit.steady_line _
  have hlines : Emit.Steady (if c.fields.isEmpty then
      Emit.line [.word "char", .gap, .word "unused", .symbol ";"] else pure ()) :=
    Emit.steady_ite (fun _ => Emit.steady_line _) fun _ => Emit.steady_pure ()
  refine Emit.steady_seq (Emit.steady_note _) (Emit.steady_seq Emit.steady_newline ?_)
  exact Emit.steady_seq (Emit.steady_line _)
    (Emit.steady_seq (Emit.steady_seq hfields hlines).deeper (Emit.steady_line _))

theorem steady_byteLines (rows : List (List UInt8)) : (byteLines rows).Steady := by
  induction rows with
  | nil => exact Emit.steady_pure ()
  | cons row rest ih =>
      cases rest with
      | nil => exact Emit.steady_line _
      | cons next rest => exact Emit.steady_seq (Emit.steady_line _) ih

theorem steady_resourceTable (name : String) (bytes : List UInt8) :
    (resourceTable d name bytes).Steady := by
  refine Emit.steady_seq Emit.steady_newline (Emit.steady_seq (Emit.steady_line _) ?_)
  exact Emit.steady_seq (steady_byteLines _).deeper (Emit.steady_line _)

theorem proper_constTable (hp : cx.program.Whole) {c : ClassDef} (hc : c ∈ cx.program.classes)
    {k : ConstDef} (hk : k ∈ c.constArrays) : Proper (constTable cx d c k) := by
  have h := hp.table hc hk
  simp only [ConstDef.mentions, resolves_append] at h
  unfold constTable
  split
  case h_1 element _ _ items hty hvalue =>
    rw [hty] at h
    have htype : Proper (typeCode cx d element) := proper_typeCode h.1
    simp [htype, Context.proper_constValue h.2]
  case h_2 => simp

theorem steady_declarations (hp : cx.program.Whole) : (declarations cx d).Steady := by
  obtain ⟨classes, hclasses, hmem⟩ := exists_printedClasses hp
  obtain ⟨enums, henums⟩ := hp.globalEnums
  obtain ⟨order, horder, hordered⟩ := hp.layoutOrder
  unfold declarations
  refine Emit.steady_seq (Emit.steady_forM fun text _ => by simp [native]) ?_
  refine Emit.Steady.bind (by simp [henums, lookedUp]) fun _ _ => ?_
  refine Emit.steady_seq (Emit.steady_forM fun entry _ => steady_enumeration entry.2) ?_
  refine Emit.Steady.bind (by simp [hclasses]) fun classes' h => ?_
  obtain rfl : classes = classes' := Except.ok.inj (hclasses.symm.trans h)
  refine Emit.steady_seq (Emit.Steady.group (Emit.steady_forM fun _ hentry =>
    Emit.steady_forM fun k hk => steady_macroLine hp (hmem _ hentry) hk)) ?_
  refine Emit.steady_seq (Emit.Steady.group (Emit.steady_forM fun _ _ =>
    Emit.steady_ite (fun _ => Emit.steady_pure ()) fun _ => Emit.steady_line _)) ?_
  refine Emit.steady_seq (Emit.Steady.group (Emit.steady_forM fun entry hentry =>
    steady_prototypes hp (hmem _ hentry) entry.2)) ?_
  refine Emit.Steady.bind (by simp [horder, lookedUp]) fun order' h => ?_
  obtain rfl : order = order' := by simpa [horder, lookedUp] using h
  refine Emit.steady_seq (Emit.steady_forM fun id hid => ?_) ?_
  · exact Emit.Steady.bind (by simpa using Context.proper_classOf (hordered id hid)) fun c hc =>
      steady_structLayout hp (Context.mem_classes_of_classOf hc)
  refine Emit.steady_seq (Emit.steady_forM fun entry _ =>
    steady_resourceTable entry.1 entry.2) ?_
  exact Emit.Steady.group (Emit.steady_forM fun _ hentry => Emit.steady_forM fun k hk =>
    Emit.Steady.bind (by simpa using proper_constTable hp (hmem _ hentry) hk) fun _ _ =>
      Emit.steady_line _)

theorem steady_includes (used : List Supplier) : (includes d used).Steady := by
  cases d with
  | standard => exact Emit.steady_forM fun _ _ => Emit.steady_line _
  | openCL => exact Emit.steady_pure ()

theorem steady_library (used : List Supplier) : (library d used).Steady := by
  cases d with
  | standard => exact Emit.steady_pure ()
  | openCL =>
      exact Emit.steady_forM fun _ _ =>
        Emit.steady_ite (fun _ => by simp) fun _ => Emit.steady_pure ()

/-- The sections are printed before the file is opened, and the file is closed at the margin. -/
theorem leads_assemble (hp : cx.program.Whole) (path : Path) :
    (assemble cx d path).Leads Desk.Blank Desk.Blank := by
  refine (Run.leads_sectionText (steady_bodies hp)).bind fun bodyText => ?_
  refine (Run.leads_sectionText (steady_declarations hp)).bind fun declarationText => ?_
  refine (Run.leads_sectionText (steady_library _)).bind fun libraryText => ?_
  refine (Run.leads_sectionText (steady_includes _)).bind fun includeText => ?_
  have hopen : (Emit.ofSteps [.note (.assembling cx.target path), .openFile path]).Leads
      Desk.Blank (Desk.At (some path) 0 []) :=
    (Emit.leads_note _).bind fun _ _ => Emit.leads_openFile path
  refine (Run.leads_perform hopen).bind fun _ => ?_
  let text := joinSegments [includeText, declarationText, libraryText, bodyText]
  have hwrite : (modify fun desk => { desk with writer := desk.writer.writeRaw text } :
      Run Unit).Leads (Desk.At (some path) 0 []) (Desk.At (some path) 0 []) :=
    Run.leads_modify fun _ hd => hd
  exact hwrite.bind fun _ => Run.leads_perform (Emit.leads_closeFile path)

end CFamily

namespace ActionScript

variable {cx : Context} {place : Placement}

theorem leads_classFile (name : String) (visibility : Visibility) {inside : Emit Unit}
    (h : inside.Steady) : (classFile place name visibility inside).Leads Desk.Blank Desk.Blank := by
  let path := place.directory.join ⟨name ++ ".as"⟩
  refine (Emit.leads_openFile path).bind fun _ _ => ?_
  refine Emit.Leads.bind ((Emit.steady_line _).leads (some path) 0 []) fun _ _ => ?_
  have hclass : (Emit.braced do
      Emit.line [.word "import", .gap, .word "flash", .symbol ".", .word "utils", .symbol ".",
        .word "ByteArray", .symbol ";"]
      Emit.newline
      Emit.line [visibilityWord visibility, .gap, .word "class", .gap, .word name]
      inside.braced).Steady :=
    (Emit.steady_seq (Emit.steady_line _) (Emit.steady_seq Emit.steady_newline
      (Emit.steady_seq (Emit.steady_line _) h.braced))).braced
  exact (hclass.leads (some path) 0 []).bind fun _ _ => Emit.leads_closeFile path

theorem steady_memberLines (hp : cx.program.Whole) {c : ClassDef} (hc : c ∈ cx.program.classes)
    {m : Member} (hm : m ∈ c.members) : (memberLines cx m).Steady := by
  have h := hp.member hc hm
  cases m with
  | field f =>
      simp only [Member.mentions, resolves_append, resolves_receiverMentions] at h
      refine Emit.Steady.bind (by simpa using proper_typed f.name h.1) fun _ _ => ?_
      refine Emit.steady_seq (Emit.steady_put _) ?_
      exact Emit.steady_seq (steady_initializer hp f.name h.1 h.2) (Emit.steady_line _)
  | const k =>
      simp only [Member.mentions, ConstDef.mentions, resolves_append] at h
      refine Emit.steady_ite (fun _ => ?_) fun _ => Emit.steady_pure ()
      refine Emit.Steady.bind (by simpa using proper_typeCode h.1) fun _ _ => ?_
      exact Emit.Steady.bind (by simpa using Context.proper_constValue h.2) fun _ _ =>
        Emit.steady_line _
  | method m =>
      simp only [Member.mentions, resolves_append, resolves_flatMap, resolves_blockMentions] at h
      have hparams : Proper (m.params.mapM fun p => typed cx p.name p.ty) :=
        proper_mapM fun param hparam => proper_typed param.name (h.1.2 param hparam)
      refine Emit.steady_seq Emit.steady_newline ?_
      refine Emit.Steady.bind (by simpa using hparams) fun _ _ => ?_
      refine Emit.Steady.bind (by simpa using proper_typeCode h.1.1) fun _ _ => ?_
      exact Emit.steady_seq (Emit.steady_line _) (Context.steady_body hp h.2)

theorem steady_tableLine (hp : cx.program.Whole) {c : ClassDef} (hc : c ∈ cx.program.classes)
    {k : ConstDef} (hk : k ∈ c.constArrays) : (tableLine cx k).Steady := by
  have h := hp.table hc hk
  simp only [ConstDef.mentions, resolves_append] at h
  exact Emit.Steady.bind (by simpa using Context.proper_constValue h.2) fun _ _ =>
    Emit.steady_line _

/-- What a class contains is steady in every context of its program. -/
theorem steady_inside (cx : Context) (hp : cx.program.Whole) {c : ClassDef}
    (hc : c ∈ cx.program.classes) : Emit.Steady (do
      c.members.forM (memberLines cx)
      match c.constructor? with
      | some stmts => constructorLines cx c stmts
      | none => pure ()
      c.constArrays.forM (tableLine cx)) := by
  have htables : (c.constArrays.forM (tableLine cx)).Steady :=
    Emit.steady_forM fun k hk => steady_tableLine hp hc hk
  refine Emit.steady_seq (Emit.steady_forM fun m hm => steady_memberLines hp hc hm) ?_
  cases hconstructor : c.constructor? with
  | none => exact htables
  | some stmts =>
      have hbody : (cx.body stmts).Steady := Context.steady_body hp fun s hs =>
        hp.constructor hc s (by simpa [hconstructor] using hs)
      exact Emit.steady_seq (Emit.steady_seq Emit.steady_newline
        (Emit.steady_seq (Emit.steady_line _) hbody)) htables

theorem leads_enumeration (e : EnumDef) :
    (enumeration place e).Leads Desk.Blank Desk.Blank :=
  (Emit.leads_note _).bind fun _ _ =>
    leads_classFile _ _ (Emit.steady_forM fun _ _ => Emit.steady_line _)

theorem leads_classDef (hp : cx.program.Whole) {id : ClassId}
    (h : cx.program.declares (.classDef id) = true) :
    (classDef cx place id).Leads Desk.Blank Desk.Blank := by
  refine (Emit.leads_lift (Context.proper_classOf h)).bind fun c hc => ?_
  refine (Emit.leads_note _).bind fun _ _ => leads_classFile _ _ ?_
  exact steady_inside { cx with current := some id } hp (Context.mem_classes_of_classOf hc)

theorem leads_symbolFiles (hp : cx.program.Whole) :
    (symbolFiles cx place).Leads Desk.Blank Desk.Blank := by
  have hguarded :
      ∀ rest : Emit Unit, rest.Leads Desk.Blank Desk.Blank → Emit.Leads Desk.Blank Desk.Blank
      (do if !cx.program.natives.isEmpty then (cx.unsupported .topLevelNatives : Result Unit)
          rest) := by
    intro rest hrest
    dsimp only
    split_ifs
    · exact (Emit.leads_lift (by simp)).bind fun _ _ => hrest
    · exact hrest
  refine hguarded _ (Emit.leads_forM fun symbol hsymbol => ?_)
  cases symbol with
  | enumeration id =>
      exact (Emit.leads_lift (Context.proper_enumOf (hp.global hsymbol))).bind fun e _ =>
        leads_enumeration e
  | classDef id => exact leads_classDef hp (hp.global hsymbol)

theorem steady_separatedLines (texts : List String) : (separatedLines texts).Steady := by
  induction texts with
  | nil => exact Emit.steady_pure ()
  | cons text rest ih =>
      cases rest with
      | nil => exact Emit.steady_lines _
      | cons next rest =>
          exact Emit.steady_seq (Emit.steady_lines _) (Emit.steady_seq Emit.steady_newline ih)

theorem leads_helperFile (used : List Supplier) :
    (helperFile place used).Leads Desk.Blank Desk.Blank := by
  unfold helperFile
  dsimp only
  split
  · exact Emit.leads_lift (proper_ok ())
  · exact (Emit.leads_note _).bind fun _ _ =>
      leads_classFile _ _ (steady_separatedLines _)

theorem leads_files (hp : cx.program.Whole) : (files cx place).Leads Desk.Blank Desk.Blank :=
  (leads_symbolFiles hp).bind fun _ _ => leads_helperFile _

end ActionScript

theorem Backend.leads_emission (t : Target) {p : Program} (hp : p.Whole) (o : Options) :
    (emission t p o).Leads Desk.Blank Desk.Blank := by
  cases t with
  | actionScript =>
      exact Run.leads_perform (ActionScript.leads_files hp)
  | cFamily d => exact CFamily.leads_assemble hp _

/-- Every run on a whole program ends with its files or is refused. -/
theorem proper_generate (target : String) {p : Program} (hp : p.Whole) (o : Options) :
    Proper (generate target p o).files := by
  unfold generate
  cases hname : Backend.ofName? target with
  | error refusal => exact proper_refused refusal
  | ok b =>
      have hrun := (Backend.leads_emission b.target hp o ⟨.new, []⟩ rfl).1
      change Proper (b.run p o).1.files
      unfold Backend.run
      rcases h : (Backend.emission b.target p o).run.run ⟨.new, []⟩ with ⟨fault | _, desk⟩
      · rw [h] at hrun
        exact fun fault' hfault => hrun fault' (by simpa using hfault)
      · exact proper_ok _

/-- No dangling reference is found exactly if every reference that occurs anywhere in the program
points at a declaration; then every run on the program ends with files or is refused, for every
target and with all options. -/
theorem findDangling_complete_and_safe (p : Program) :
    (p.findDangling = none ↔ ∀ id, p.Refers id → p.declares id = true) ∧
      (p.findDangling = none → ∀ target o, (∃ files, (generate target p o).files = .ok files) ∨
        ∃ refusal, (generate target p o).files = .error (.refused refusal)) := by
  refine ⟨findDangling_eq_none_iff, fun h target o => ?_⟩
  have hp : p.Whole := fun id hid => findDangling_eq_none_iff.mp h id (mem_mentions.mp hid)
  have hproper := proper_generate target hp o
  cases hfiles : (generate target p o).files with
  | ok files => exact .inl ⟨files, rfl⟩
  | error fault =>
      obtain ⟨refusal, rfl⟩ := hproper fault hfiles
      exact .inr ⟨refusal, rfl⟩

/-- A class with a reference to itself. -/
theorem safe_of_self_reference :
    let node : ClassDef := ⟨"Node", .exported, none, none,
      [.field ⟨"next", .exported, none, .classRef ⟨0⟩, none⟩], []⟩
    let p : Program := ⟨[], [node], [.classDef ⟨0⟩], [], .empty⟩
    let report := generate "c" p ⟨⟨"node"⟩, none⟩
    p.findDangling = none ∧ ((∃ files, report.files = .ok files) ∨
      ∃ refusal, report.files = .error (.refused refusal)) :=
  ⟨rfl, (findDangling_complete_and_safe _).2 rfl _ _⟩

end Emitter
