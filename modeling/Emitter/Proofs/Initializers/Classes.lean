import Emitter.Proofs.Initializers.Frames
import Emitter.Proofs.Whole.Assembled
import Emitter.Proofs.Whole.ClassFiles

/-!
# Initializers in classes

What the top-level classes declare: their fields and the locals of their constructors and methods,
in the order in which a target comes to them. In both families of targets each of them has its place
in the frame that is printed, or its initializer is dropped with a warning.
-/

namespace Emitter

open Layout Program

namespace Program

def MethodDef.locals (m : MethodDef) : List VarDecl := m.body.flatMap Stmt.locals

def ClassDef.constructorLocals (c : ClassDef) : List VarDecl :=
  (c.constructor?.getD []).flatMap Stmt.locals

/-- The fields of a class, by the names that the C family gives them. -/
def ClassDef.declaredFields (c : ClassDef) : List VarDecl :=
  c.fields.map fun decl => ⟨c.name ++ "." ++ decl.name, decl.ty, decl.value⟩

/-- What a member declares in ActionScript. -/
def Member.declared : Member → List VarDecl
  | .field decl => [⟨decl.name, decl.ty, decl.value⟩]
  | .const _ => []
  | .method m => m.locals

/-- The fields and locals of a class, by the names that warnings give them. The C family sets the
fields up in the constructor, in front of the methods; in ActionScript they are declared among the
methods, and the constructor comes last. -/
def ClassDef.declared (t : Target) (c : ClassDef) : List VarDecl :=
  match t with
  | .actionScript => c.members.flatMap Member.declared ++ c.constructorLocals
  | .cFamily _ =>
    c.declaredFields ++ c.constructorLocals ++ c.methods.flatMap MethodDef.locals

/-- What the top-level classes declare, each class once for each time it is listed. -/
def declared (t : Target) (p : Program) : List VarDecl :=
  p.shownClasses.flatMap fun entry => entry.2.declared t

theorem ClassDef.constructor_mapValues (c : ClassDef) (f : Expr → Expr) :
    (c.mapValues f).constructor?.getD [] = (c.constructor?.getD []).map (Stmt.mapValues f) := by
  simp only [mapValues]
  cases c.constructor? <;> rfl

/-- A class that needs no construction sets nothing up. -/
theorem initializes_eq_false {p : Program} {id : ClassId} {c : ClassDef} (hc : p.classOf id = .ok c)
    (h : p.constructs id = false) : c.initializes = false := by
  by_contra hinit
  have hneeds : p.needsConstruction id = .ok true := by
    simp [needsConstruction, constructsWithin, hc, hinit, bind, Except.bind, pure, Except.pure]
  rw [constructs, hneeds] at h
  cases h

/-- What is constructed of a class that sets nothing up has no values. -/
theorem ClassDef.value_eq_none {c : ClassDef} (h : c.initializes = false) :
    ∀ decl ∈ c.declaredFields ++ c.constructorLocals, decl.value = none := by
  obtain ⟨hconstructor, hfields⟩ :
      c.constructor? = none ∧ ∀ decl ∈ c.fields, decl.value = none := by
    simpa [initializes] using h
  simpa [declaredFields, constructorLocals, hconstructor] using hfields

theorem initialValues_eq_nil {decls : List VarDecl} (h : ∀ decl ∈ decls, decl.value = none) :
    initialValues decls = [] := by
  simpa [initialValues] using fun decl hdecl _ => h decl hdecl

theorem dropped_eq_nil {t : Target} {decls : List VarDecl} (h : ∀ decl ∈ decls, decl.value = none) :
    dropped t decls = [] := by
  simpa [dropped, VarDecl.isDropped] using fun decl hdecl _ => h decl hdecl

theorem dropped_flatMap {α : Type} {t : Target} (f : α → List VarDecl) (items : List α) :
    dropped t (items.flatMap f) = items.flatMap fun item => dropped t (f item) := by
  induction items with
  | nil => rfl
  | cons item rest ih => simp [ih]

end Program

namespace CFamily

open Emit

variable {cx : Context} {d : Dialect}

/-- The functions of a class: the one that constructs instances, if they need it, and the
methods. -/
def classBodies (cx : Context) (d : Dialect) (c : ClassDef) (constructed : Bool) : Emit Unit := do
  if constructed then constructorBody cx c
  c.methods.forM (methodBody cx d c)

theorem bodies_eq : bodies cx d = (do
    (← (printedClasses cx : Result _)).forM fun (c, constructed) =>
      classBodies cx d c constructed) := rfl

theorem framed_fieldSetup (c : ClassDef) (decl : FieldDef) (name : String) :
    Framed cx (initialValues [⟨name, decl.ty, decl.value⟩]) fun f =>
      fieldSetup (cx.mapValues f) (c.mapValues f) (decl.mapValue f) := by
  obtain ⟨fieldName, visibility, doc, ty, value⟩ := decl
  rw [initialValues_singleton]
  by_cases hstorage : ty.isStorage = true
  · simp only [hstorage, ↓reduceIte]
    refine (framed_const (do
      if value.isSome then note (.initializerDropped cx.target (c.name ++ "." ++ fieldName))
      constructCalls cx 0 (selfField cx ⟨fieldName, visibility, doc, ty, value⟩) ty)).of_eq
        fun f => ?_
    simp only [fieldSetup, FieldDef.mapValue, hstorage, Option.isSome_map, constructCalls_mapValues]
    rfl
  · simp only [hstorage, Bool.false_eq_true, ↓reduceIte]
    cases value with
    | none =>
        refine (framed_const (constructCalls cx 0
          (selfField cx ⟨fieldName, visibility, doc, ty, none⟩) ty)).of_eq fun f => ?_
        simp only [fieldSetup, FieldDef.mapValue, hstorage, Option.map_none,
          constructCalls_mapValues]
        rfl
    | some e =>
        refine framed_value [.put [.word "self"], .put [.symbol "->"],
          .put [cx.localWord fieldName]] [.put [.symbol ";"], .newline]
          fun f steps hsteps => ?_
        simp only [fieldSetup, FieldDef.mapValue, hstorage, Option.map_some] at hsteps
        obtain ⟨code, hcode, hline⟩ := liftM_bind_eq_ok.mp hsteps
        obtain rfl := ofSteps_eq_ok.mp hline
        rw [Context.code_mapValues] at hcode
        exact ⟨code, hcode, by simp [Step.initialValue, Step.pieces, selfField]; rfl⟩

theorem framed_constructorBody (c : ClassDef) :
    Framed cx (initialValues (c.declaredFields ++ c.constructorLocals)) fun f =>
      constructorBody (cx.mapValues f) (c.mapValues f) := by
  have hfields : Framed cx (initialValues c.declaredFields) fun f =>
      (c.mapValues f).fields.forM (fieldSetup (cx.mapValues f) (c.mapValues f)) := by
    simp only [ClassDef.fields_mapValues, forM_map, ClassDef.declaredFields]
    rw [List.map_eq_flatMap, initialValues_flatMap]
    exact framed_forM fun decl _ => framed_fieldSetup c decl _
  have hstmts : Framed cx (initialValues c.constructorLocals) fun f =>
      (cx.mapValues f).statements ((c.mapValues f).constructor?.getD []) := by
    simp only [ClassDef.constructor_mapValues]
    exact Context.framed_statements fun s _ => Context.framed_statement s
  rw [initialValues_append]
  exact ((hfields.seq hstmts).braced.behind (line (constructorSignature c))).behind newline

theorem framed_methodBody (c : ClassDef) (m : MethodDef) :
    Framed cx (initialValues m.locals) fun f =>
      methodBody (cx.mapValues f) d (c.mapValues f) (m.mapValues f) := by
  have hbody := @Context.framed_body cx m.body
  refine ((framed_lift (signature cx d c m) (fun f => signature_mapValues c m)
    fun code _ => hbody.behind (line code)).behind newline).behind
      (note (.method cx.target c.name m.name))

theorem framed_classBodies {id : ClassId} {c : ClassDef} (hc : cx.program.classOf id = .ok c) :
    Framed cx (initialValues (c.declared (.cFamily d))) fun f =>
      classBodies (cx.mapValues f) d (c.mapValues f) (cx.program.constructs id) := by
  have hmethods : Framed cx (initialValues (c.methods.flatMap MethodDef.locals)) fun f =>
      (c.mapValues f).methods.forM (methodBody (cx.mapValues f) d (c.mapValues f)) := by
    simp only [ClassDef.methods_mapValues, forM_map, initialValues_flatMap]
    exact framed_forM fun m _ => framed_methodBody c m
  simp only [ClassDef.declared]
  rw [initialValues_append]
  cases hconstructs : cx.program.constructs id with
  | true => exact (framed_constructorBody c).seq hmethods
  | false =>
      rw [initialValues_eq_nil (ClassDef.value_eq_none (initializes_eq_false hc hconstructs))]
      exact hmethods.behind (pure ())

theorem warns_fieldSetup (c : ClassDef) (decl : FieldDef) : (fieldSetup cx c decl).Warns
    (dropped cx.target [⟨c.name ++ "." ++ decl.name, decl.ty, decl.value⟩]) := by
  have hcalls := @Context.warns_constructCalls cx 0 (selfField cx decl) decl.ty
  unfold fieldSetup
  split
  case h_1 e hstorage hvalue =>
    have hnone : dropped cx.target [⟨c.name ++ "." ++ decl.name, decl.ty, decl.value⟩] = [] := by
      simp [dropped, VarDecl.isDropped, hstorage]
    exact hnone ▸ Warns.lift _ fun code _ => warns_line _
  case h_2 hplace =>
    cases hvalue : decl.value with
    | none => simpa [dropped, VarDecl.isDropped, hvalue] using (warns_pure ()).seq hcalls
    | some e =>
        have hstorage : decl.ty.isStorage = true := by
          by_contra hstorage
          exact hplace e (by simpa using hstorage) hvalue
        simpa [dropped, VarDecl.isDropped, hvalue, hstorage] using
          (warns_dropped cx.target (c.name ++ "." ++ decl.name)).seq hcalls

theorem warns_constructorBody (c : ClassDef) : (constructorBody cx c).Warns
    (dropped cx.target (c.declaredFields ++ c.constructorLocals)) := by
  have hfields : (c.fields.forM (fieldSetup cx c)).Warns (dropped cx.target c.declaredFields) := by
    rw [ClassDef.declaredFields, List.map_eq_flatMap, dropped_flatMap]
    exact warns_forM fun decl _ => warns_fieldSetup c decl
  have hstmts : (cx.statements (c.constructor?.getD [])).Warns
      (dropped cx.target c.constructorLocals) :=
    Context.warns_statements fun s _ => Context.warns_statement s
  rw [dropped_append]
  exact warns_newline.seq ((warns_line _).seq (hfields.seq hstmts).braced)

theorem warns_methodBody (c : ClassDef) (m : MethodDef) :
    (methodBody cx d c m).Warns (dropped cx.target m.locals) :=
  (warns_debug (by simp [Notice.level])).seq (warns_newline.seq (Warns.lift _ fun code _ =>
    (warns_line code).seq (Context.warns_body m.body)))

theorem warns_classBodies {id : ClassId} {c : ClassDef} (hc : cx.program.classOf id = .ok c) :
    (classBodies cx d c (cx.program.constructs id)).Warns
      (dropped cx.target (c.declared (.cFamily d))) := by
  have hmethods : (c.methods.forM (methodBody cx d c)).Warns
      (dropped cx.target (c.methods.flatMap MethodDef.locals)) := by
    rw [dropped_flatMap]
    exact warns_forM fun m _ => warns_methodBody c m
  simp only [ClassDef.declared]
  rw [dropped_append]
  cases hconstructs : cx.program.constructs id with
  | true => exact (warns_constructorBody c).seq hmethods
  | false =>
      rw [dropped_eq_nil (ClassDef.value_eq_none (initializes_eq_false hc hconstructs))]
      exact (warns_pure ()).seq hmethods

end CFamily

namespace ActionScript

open Emit

variable {cx : Context}

theorem framed_memberLines (m : Member) : Framed cx (initialValues m.declared) fun f =>
    memberLines (cx.mapValues f) (m.mapValues f) := by
  cases m with
  | field decl =>
      refine framed_lift (typed cx decl.name decl.ty) (fun f => ?_) fun code _ => ?_
      · rw [typed_mapValues]
        rfl
      · exact ((framed_initializer decl.name decl.ty decl.value).before (line [.symbol ";"])).behind
          (put ([visibilityWord decl.visibility, .gap,
            .word (if decl.ty.isStorage then "const" else "var"), .gap] ++ code))
  | const k =>
      refine (framed_const (constLine cx k)).of_eq fun f => ?_
      simp only [Member.mapValues, memberLines, constLine, typeCode_mapValues,
        Context.constValue_mapValues]
  | method m =>
      refine Framed.behind newline (framed_lift
        (m.params.mapM fun p => typed cx p.name p.ty) (fun f => ?_) fun params _ => ?_)
      · rw [typed_mapValues]
        rfl
      refine framed_lift (typeCode cx m.returnType) (fun f => ?_) fun returned _ => ?_
      · rw [typeCode_mapValues]
        rfl
      exact (Context.framed_body m.body).behind (line ([visibilityWord m.visibility, .gap] ++
        (if m.isStatic then [Lexeme.word "static", Lexeme.gap] else []) ++
        [.word "function", .gap, cx.localWord m.name] ++
        Code.parenthesized (.commaSeparated params) ++ Code.operator ":" ++ returned))

theorem framed_contentLines (c : ClassDef) :
    Framed cx (initialValues (c.declared .actionScript)) fun f =>
      contentLines (cx.mapValues f) (c.mapValues f) := by
  have hmembers : Framed cx (initialValues (c.members.flatMap Member.declared)) fun f =>
      (c.mapValues f).members.forM (memberLines (cx.mapValues f)) := by
    simp only [ClassDef.mapValues, forM_map, initialValues_flatMap]
    exact framed_forM fun m _ => framed_memberLines m
  have htables (f : Expr → Expr) :
      (c.mapValues f).constArrays.forM (tableLine (cx.mapValues f)) =
        c.constArrays.forM (tableLine cx) := by
    have htable : tableLine (cx.mapValues f) = tableLine cx := by
      funext k
      simp only [tableLine, Context.constValue_mapValues]
    rw [htable]
    rfl
  simp only [contentLines, htables, ClassDef.declared, initialValues_append]
  refine hmembers.seq ?_
  simp only [ClassDef.mapValues, ClassDef.constructorLocals]
  cases c.constructor? with
  | none => exact framed_const _
  | some stmts =>
      have hconstructor : Framed cx (initialValues (stmts.flatMap Stmt.locals)) fun f =>
          constructorLines (cx.mapValues f) (c.mapValues f) (stmts.map (Stmt.mapValues f)) :=
        ((Context.framed_body stmts).behind (line [.word "public", .gap, .word "function", .gap,
          .word c.name, .symbol "(", .symbol ")"])).behind newline
      exact hconstructor.before (c.constArrays.forM (tableLine cx))

theorem framed_classLines {values : List Expr} {inside : (Expr → Expr) → Emit Unit}
    (place : Placement) (name : String) (visibility : Visibility) (h : Framed cx values inside) :
    Framed cx values fun f => classLines place name visibility (inside f) :=
  ((((h.braced.behind _).behind _).behind _).braced).behind _

theorem warns_memberLines (m : Member) :
    (memberLines cx m).Warns (dropped cx.target m.declared) := by
  cases m with
  | field decl =>
      refine Warns.lift _ fun code _ => ?_
      have hline := (@warns_initializer cx decl.name decl.ty decl.value).seq
        (warns_line [.symbol ";"])
      rw [List.append_nil] at hline
      exact (warns_put _).seq hline
  | const k =>
      change (constLine cx k).Warns []
      unfold constLine
      split
      · exact Warns.lift _ fun type _ => Warns.lift _ fun value _ => warns_line _
      · exact warns_pure ()
  | method m =>
      exact warns_newline.seq (Warns.lift _ fun params _ => Warns.lift _ fun returned _ =>
        (warns_line _).seq (Context.warns_body m.body))

theorem warns_contentLines (c : ClassDef) :
    (contentLines cx c).Warns (dropped cx.target (c.declared .actionScript)) := by
  have hmembers : (c.members.forM (memberLines cx)).Warns
      (dropped cx.target (c.members.flatMap Member.declared)) := by
    rw [dropped_flatMap]
    exact warns_forM fun m _ => warns_memberLines m
  have htables : (c.constArrays.forM (tableLine cx)).Warns [] :=
    warns_forM_of_silent fun k _ => Warns.lift _ fun value _ => warns_line _
  simp only [ClassDef.declared, dropped_append]
  refine hmembers.seq ?_
  simp only [ClassDef.constructorLocals]
  cases c.constructor? with
  | none => exact htables
  | some stmts =>
      have hconstructor : (constructorLines cx c stmts).Warns
          (dropped cx.target (stmts.flatMap Stmt.locals)) :=
        warns_newline.seq ((warns_line _).seq (Context.warns_body stmts))
      simpa using hconstructor.seq htables

theorem warns_classLines {ws : List Notice} {inside : Emit Unit} (place : Placement) (name : String)
    (visibility : Visibility) (h : inside.Warns ws) :
    (classLines place name visibility inside).Warns ws :=
  (warns_line _).seq (Warns.braced ((warns_line _).seq (warns_newline.seq ((warns_line _).seq
    h.braced))))

end ActionScript

namespace Context

variable {cx : Context}

/-- The context in which a class is printed. -/
def inClass (cx : Context) (id : ClassId) : Context :=
  match cx.target with
  | .actionScript => { cx with current := some id }
  | .cFamily _ => cx

/-- What is printed of a top-level class: its file in ActionScript, its functions in the C
family. -/
def printedClass (cx : Context) (o : Options) (id : ClassId) (c : ClassDef) : Emit Unit :=
  match cx.target with
  | .actionScript => ActionScript.classLines ⟨o.output, o.package⟩ c.name c.visibility
    (ActionScript.contentLines (cx.inClass id) c)
  | .cFamily d => CFamily.classBodies cx d c (cx.program.constructs id)

theorem inClass_target (cx : Context) (id : ClassId) : (cx.inClass id).target = cx.target := by
  unfold inClass
  split <;> rfl

theorem inClass_mapValues (f : Expr → Expr) (id : ClassId) :
    (cx.mapValues f).inClass id = (cx.inClass id).mapValues f := by
  have ht : (cx.mapValues f).target = cx.target := rfl
  unfold inClass
  rw [ht]
  cases cx.target <;> rfl

/-- A class is printed as one frame, with a place for the initializer of each declaration that has
room for one. -/
theorem framed_printedClass (o : Options) {id : ClassId} {c : ClassDef}
    (hc : cx.program.classOf id = .ok c) :
    Emit.Framed (cx.inClass id) (initialValues (c.declared cx.target)) fun f =>
      (cx.mapValues f).printedClass o id (c.mapValues f) := by
  have ht (f : Expr → Expr) : (cx.mapValues f).target = cx.target := rfl
  have hconstructs (f : Expr → Expr) :
      (cx.mapValues f).program.constructs id = cx.program.constructs id := by
    have hneeds : (cx.mapValues f).program.needsConstruction id = cx.program.needsConstruction id :=
      needsConstruction_mapValues id
    rw [constructs, hneeds, constructs]
  simp only [printedClass, ht, hconstructs, inClass_mapValues]
  cases htarget : cx.target with
  | actionScript =>
      exact ActionScript.framed_classLines _ c.name c.visibility
        (ActionScript.framed_contentLines c)
  | cFamily d =>
      have hinside : cx.inClass id = cx := by simp only [inClass, htarget]
      rw [hinside]
      exact CFamily.framed_classBodies hc

end Context

end Emitter
