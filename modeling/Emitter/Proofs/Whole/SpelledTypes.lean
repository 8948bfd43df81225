import Emitter.Proofs.Statement.Locals
import Emitter.Proofs.Whole.FileNames

/-!
# The types that ActionScript files spell

ActionScript has no 64-bit integer. The type of a field, a public constant, a parameter, a returned
value or a local is spelled where it is declared, and spelling it fails if it is such an integer or
an array of them. A constant that is not public is replaced by its value, and a table is declared as
an array whatever its elements are, so the types of these two are never looked at.
-/

namespace Emitter

open Layout Program

namespace Program

/-- The type of the elements at the bottom of an array. -/
def Ty.innermost : Ty → Ty
  | .array element _ _ => element.innermost
  | ty => ty

/-- The 64-bit integer, or an array of it at any depth. -/
def Ty.isLong (ty : Ty) : Bool := decide (ty.innermost = .int .long)

/-- What a class declares with a type: a member, a table, or a name of one of its functions. -/
inductive Declaration
  | field (f : FieldDef)
  | const (k : ConstDef)
  | table (k : ConstDef)
  | param (x : Param)
  | returned (m : MethodDef)
  | localVariable (decl : VarDecl)

namespace Declaration

def ty : Declaration → Ty
  | field f => f.ty
  | const k | table k => k.ty
  | param x => x.ty
  | returned m => m.returnType
  | localVariable decl => decl.ty

/-- The declaration is printed with its type. -/
def isSpelled : Declaration → Bool
  | const k => k.visibility = .exported
  | table _ => false
  | _ => true

end Declaration

def Member.declarations : Member → List Declaration
  | .field f => [.field f]
  | .const k => [.const k]
  | .method m =>
      m.params.map .param ++ .returned m :: (m.body.flatMap Stmt.locals).map .localVariable

/-- All that a class declares, in the order in which ActionScript has it. -/
def ClassDef.declarations (c : ClassDef) : List Declaration :=
  c.members.flatMap Member.declarations ++
    ((c.constructor?.getD []).flatMap Stmt.locals).map .localVariable ++ c.constArrays.map .table

end Program

namespace ActionScript

variable {cx : Context} {ty : Ty} {c : ClassDef} {d : Declaration} {m : Member}

/-- Spelling the 64-bit integer is refused, inside any array. -/
theorem typeCode_of_isLong (cx : Context) (h : ty.isLong = true) :
    typeCode cx ty = cx.unmappedType (.int .long) := by
  have hlong : ty.innermost = .int .long := of_decide_eq_true h
  induction ty with
  | int kind =>
      obtain rfl := Ty.int.inj hlong
      rfl
  | array element storage length ih =>
      have hinner : typeCode cx element = cx.unmappedType (.int .long) :=
        ih (decide_eq_true hlong) hlong
      rw [typeCode, hinner]
      rfl
  | _ => cases hlong

theorem isLong_of_typeCode {code : Code} (h : typeCode cx ty = .ok code) : ty.isLong = false := by
  rw [← Bool.not_eq_true]
  intro hlong
  rw [typeCode_of_isLong cx hlong] at h
  cases h

theorem isLong_of_typed {name : String} {code : Code} (h : typed cx name ty = .ok code) :
    ty.isLong = false := by
  obtain ⟨type, htype, -⟩ := Result.bind_eq_ok.mp h
  exact isLong_of_typeCode htype

theorem isLong_fieldLine {f : FieldDef} {steps : List Step}
    (h : fieldLine cx f = ⟨steps, .ok ()⟩) : f.ty.isLong = false := by
  obtain ⟨code, hcode, -⟩ := Emit.liftM_bind_eq_ok.mp h
  exact isLong_of_typed hcode

theorem isLong_constLine {k : ConstDef} {steps : List Step}
    (h : constLine cx k = ⟨steps, .ok ()⟩) (hpublic : k.visibility = .exported) :
    k.ty.isLong = false := by
  rw [constLine, if_pos hpublic] at h
  obtain ⟨type, htype, -⟩ := Emit.liftM_bind_eq_ok.mp h
  exact isLong_of_typeCode htype

theorem isLong_declareLocal {decl : VarDecl} {steps : List Step}
    (h : declareLocal cx decl = ⟨steps, .ok ()⟩) : decl.ty.isLong = false := by
  obtain ⟨code, hcode, -⟩ := Emit.liftM_bind_eq_ok.mp h
  exact isLong_of_typed hcode

/-- No local that is printed with the statements of a function is a 64-bit integer. -/
theorem isLong_body (ht : cx.target = .actionScript) {stmts : Block} {steps : List Step}
    (h : cx.body stmts = ⟨steps, .ok ()⟩) {decl : VarDecl}
    (hdecl : decl ∈ stmts.flatMap Stmt.locals) : decl.ty.isLong = false := by
  obtain ⟨-, inner, -, hinner, -⟩ := Context.isPart_body hdecl steps h
  rw [Context.declareLocal, ht] at hinner
  exact isLong_declareLocal hinner

theorem isLong_methodLines (ht : cx.target = .actionScript) {f : MethodDef} {steps : List Step}
    (h : methodLines cx f = ⟨steps, .ok ()⟩) : (∀ x ∈ f.params, x.ty.isLong = false) ∧
      f.returnType.isLong = false ∧
        ∀ decl ∈ f.body.flatMap Stmt.locals, decl.ty.isLong = false := by
  obtain ⟨_, h, -⟩ := Emit.ofSteps_bind_eq_ok.mp h
  obtain ⟨params, hparams, h⟩ := Emit.liftM_bind_eq_ok.mp h
  obtain ⟨returned, hreturned, h⟩ := Emit.liftM_bind_eq_ok.mp h
  obtain ⟨_, h, -⟩ := Emit.ofSteps_bind_eq_ok.mp h
  have hspelled : ∀ x ∈ f.params, x.ty.isLong = false :=
    ((List.forall₂_and_left _ _).mp ((Result.forall₂_of_mapM_eq_ok hparams).imp fun _ _ hcode =>
      ⟨isLong_of_typed hcode, hcode⟩)).1
  exact ⟨hspelled, isLong_of_typeCode hreturned, fun decl => isLong_body ht h⟩

theorem isLong_memberLines (ht : cx.target = .actionScript) {steps : List Step}
    (h : memberLines cx m = ⟨steps, .ok ()⟩) (hd : d ∈ m.declarations)
    (hspelled : d.isSpelled = true) : d.ty.isLong = false := by
  cases m with
  | field f =>
      obtain rfl := List.mem_singleton.mp hd
      exact isLong_fieldLine h
  | const k =>
      obtain rfl := List.mem_singleton.mp hd
      exact isLong_constLine h (of_decide_eq_true hspelled)
  | method f =>
      obtain ⟨hparams, hreturned, hlocals⟩ := isLong_methodLines ht h
      rcases List.mem_append.mp hd with hd | hd
      · obtain ⟨x, hx, rfl⟩ := List.mem_map.mp hd
        exact hparams x hx
      · rcases List.mem_cons.mp hd with rfl | hd
        · exact hreturned
        · obtain ⟨decl, hdecl, rfl⟩ := List.mem_map.mp hd
          exact hlocals decl hdecl

theorem isPart_classFile (place : Placement) (name : String) (visibility : Visibility)
    (inside : Emit Unit) : inside.IsPart (classFile place name visibility inside) := by
  have hclass : inside.IsPart (do
      Emit.line [visibilityWord visibility, .gap, .word "class", .gap, .word name]
      inside.braced) := Emit.isPart_next _ fun _ => Emit.isPart_braced inside
  refine Emit.isPart_next _ fun _ => Emit.isPart_next _ fun _ => ?_
  exact ((Emit.isPart_next _ fun _ => Emit.isPart_next _ fun _ => hclass).trans
    (Emit.isPart_braced _)).trans (Emit.isPart_first _)

theorem isPart_forM {α : Type} {f : α → Emit Unit} {items : List α} {item : α}
    (h : item ∈ items) : (f item).IsPart (items.forM f) := by
  induction items with
  | nil => cases h
  | cons first rest ih =>
      rcases List.mem_cons.mp h with rfl | h
      · exact Emit.isPart_first _
      · exact Emit.isPart_next _ fun _ => ih h

/-- No declaration that is printed with its type for a class is a 64-bit integer or an array of
them. -/
theorem isLong_classDef (ht : cx.target = .actionScript) {place : Placement} {id : ClassId}
    (hc : cx.classOf id = .ok c) {steps : List Step} (h : classDef cx place id = ⟨steps, .ok ()⟩)
    (hd : d ∈ c.declarations) (hspelled : d.isSpelled = true) : d.ty.isLong = false := by
  let inside : Context := { cx with current := some id }
  have hinside : inside.target = .actionScript := ht
  obtain ⟨c', hc', h⟩ := Emit.liftM_bind_eq_ok.mp h
  obtain rfl := Except.ok.inj (hc.symm.trans hc')
  obtain ⟨_, h, -⟩ := Emit.ofSteps_bind_eq_ok.mp h
  obtain ⟨-, lines, -, hlines, -⟩ := isPart_classFile _ _ _ _ _ h
  obtain ⟨⟨⟩, members, rest, hmembers, hrest, -⟩ := Emit.bind_eq_ok.mp hlines
  rcases List.mem_append.mp hd with hd | hd
  · rcases List.mem_append.mp hd with hd | hd
    · obtain ⟨m, hm, hd⟩ := List.mem_flatMap.mp hd
      obtain ⟨-, inner, -, hinner, -⟩ :=
        isPart_forM (f := memberLines inside) hm members hmembers
      exact isLong_memberLines hinside hinner hd hspelled
    · obtain ⟨decl, hdecl, rfl⟩ := List.mem_map.mp hd
      cases hctor : c.constructor? with
      | none => simp [hctor] at hdecl
      | some stmts =>
          simp only [hctor, Option.getD_some] at hrest hdecl
          obtain ⟨⟨⟩, constructor, _, hconstructor, -, -⟩ := Emit.bind_eq_ok.mp hrest
          obtain ⟨_, hconstructor, -⟩ := Emit.ofSteps_bind_eq_ok.mp hconstructor
          obtain ⟨_, hconstructor, -⟩ := Emit.ofSteps_bind_eq_ok.mp hconstructor
          exact isLong_body hinside hconstructor hdecl
  · obtain ⟨k, -, rfl⟩ := List.mem_map.mp hd
    cases hspelled

/-- In a successful run no field, public constant, parameter, returned value or local, at any depth,
of a class that is emitted has the 64-bit integer as its type or an array of it. Spelling such a
type is what the run is refused for. -/
theorem isLong_of_generate {p : Program} {o : Options} {files : List OutputFile}
    (h : (generate "as" p o).files = .ok files) :
    (∀ id, .classDef id ∈ p.globals → ∃ c, p.classOf id = .ok c ∧
      ∀ d ∈ c.declarations, d.isSpelled = true → d.ty.isLong = false) ∧
    ∀ (cx : Context) (ty : Ty), cx.target = .actionScript → ty.isLong = true →
      typeCode cx ty = .error (.refused (.unmappedType .actionScript "long")) := by
  refine ⟨fun id hid => ?_, fun cx ty ht hlong => ?_⟩
  · have hfile : classDef ⟨p, .actionScript, none⟩ ⟨o.output, o.package⟩ id = ⟨_, .ok ()⟩ :=
      congrArg (Emit.mk _) (outcome_symbolFile h _ hid)
    obtain ⟨c, hc, -⟩ := Emit.liftM_bind_eq_ok.mp hfile
    exact ⟨c, CFamily.lookedUp_eq_ok hc,
      fun d hd hspelled => isLong_classDef rfl hc hfile hd hspelled⟩
  · rw [typeCode_of_isLong cx hlong, Context.unmappedType, ht]
    rfl

/-- A constant of the 64-bit integer that is not public. -/
def hugeConst : ConstDef := ⟨"Huge", .hidden, none, .int .long, .int 5000000000, none⟩

/-- A table of 64-bit integers. -/
def stepsTable : ConstDef :=
  ⟨"Steps", .exported, none, .array (.int .long) false none, .array [.int 5000000000, .int 1], none⟩

/-- A class that declares something of every kind with a type: a field, a public constant, a method
with a parameter, a local in the head of a loop and a result, and the two declarations whose types
are never looked at. -/
def tallyClass : ClassDef :=
  let sums : Ty := .array (.array (.int .int) false none) false none
  ⟨"Tally", .exported, none, none,
    [.field ⟨"Total", .exported, none, .int .int, none⟩,
      .const ⟨"Most", .exported, none, .int .int, .int 9, none⟩,
      .const hugeConst,
      .method ⟨"Sum", .exported, none, true, [⟨"sums", sums, none⟩], .int .int,
        [.forLoop (some (.declare ⟨"n", .int .short, some (.literal (.int 0) (.int .int))⟩)) none
          none .breakLoop,
        .returnValue (some (.literal (.int 0) (.int .int)))]⟩], [stepsTable]⟩

def tally : Program := ⟨[], [tallyClass], [.classDef ⟨0⟩], [], .empty⟩

set_option maxRecDepth 20000 in
theorem isSome_generate_tally :
    (generate "as" tally ⟨⟨"out"⟩, none⟩).files.toOption.isSome = true := by
  decide

theorem isLong_of_generate_tally :
    ∃ files, (generate "as" tally ⟨⟨"out"⟩, none⟩).files = .ok files ∧
    ∃ c, tally.classOf ⟨0⟩ = .ok c ∧ (c.declarations.filter (·.isSpelled)).length = 5 ∧
      ∀ d ∈ c.declarations, d.isSpelled = true → d.ty.isLong = false := by
  obtain ⟨files, hfiles⟩ := Option.isSome_iff_exists.mp isSome_generate_tally
  have hok := Result.eq_ok_of_toOption hfiles
  obtain ⟨c, hc, hspelled⟩ := (isLong_of_generate hok).1 ⟨0⟩ (by decide)
  obtain rfl : tallyClass = c := Except.ok.inj hc
  exact ⟨files, hok, tallyClass, rfl, by decide, hspelled⟩

/-- The run goes through although the class declares a constant of the 64-bit integer and a table of
such integers. -/
theorem exists_isLong_tally : ∃ files, (generate "as" tally ⟨⟨"out"⟩, none⟩).files = .ok files ∧
    SymbolId.classDef ⟨0⟩ ∈ tally.globals ∧ tally.classOf ⟨0⟩ = .ok tallyClass ∧
      (∃ k, .const k ∈ tallyClass.declarations ∧ (Declaration.const k).ty.isLong = true) ∧
      ∃ k, .table k ∈ tallyClass.declarations ∧ (Declaration.table k).ty.isLong = true := by
  obtain ⟨files, hfiles⟩ := Option.isSome_iff_exists.mp isSome_generate_tally
  have hconst : .const hugeConst ∈ tallyClass.declarations := by
    simp [tallyClass, ClassDef.declarations, Member.declarations]
  have htable : .table stepsTable ∈ tallyClass.declarations := by
    simp [tallyClass, ClassDef.declarations]
  exact ⟨files, Result.eq_ok_of_toOption hfiles, by decide, rfl, ⟨hugeConst, hconst, by decide⟩,
    stepsTable, htable, by decide⟩

end ActionScript

end Emitter
