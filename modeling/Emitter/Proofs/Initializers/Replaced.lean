import Emitter.Proofs.Statement.Locals
import Emitter.Target.Statement
import Emitter.Program.Storage

/-!
# Initializers replaced

The explicit initializers of a program's fields and locals, each replaced by another expression.
Nothing else in the program changes, and nothing that is looked up in it does: what has to be
constructed, the order of layouts, the spelling of types and the printed form of every expression
stay what they are.
-/

namespace Emitter

open Layout Program

namespace Program

def VarDecl.mapValue (f : Expr → Expr) (decl : VarDecl) : VarDecl :=
  { decl with value := decl.value.map f }

mutual

/-- The statement with the initializers of its locals replaced. -/
def Stmt.mapValues (f : Expr → Expr) : Stmt → Stmt
  | .block stmts => .block (mapValuesIn f stmts)
  | .declare decl => .declare (decl.mapValue f)
  | .branch cond onTrue onFalse => .branch cond (mapValues f onTrue) (mapClause f onFalse)
  | .whileLoop cond body => .whileLoop cond (mapValues f body)
  | .doLoop body cond => .doLoop (mapValues f body) cond
  | .forLoop start cond advance body =>
    .forLoop (mapClause f start) cond (mapClause f advance) (mapValues f body)
  | .eval value => .eval value
  | .assign target op value => .assign target op value
  | .breakLoop => .breakLoop
  | .continueLoop => .continueLoop
  | .returnValue value => .returnValue value
  | .throwError message => .throwError message
  | .native text => .native text

def Stmt.mapClause (f : Expr → Expr) : Option Stmt → Option Stmt
  | none => none
  | some s => some (mapValues f s)

def Stmt.mapValuesIn (f : Expr → Expr) : List Stmt → List Stmt
  | [] => []
  | s :: rest => mapValues f s :: mapValuesIn f rest

end

def FieldDef.mapValue (f : Expr → Expr) (decl : FieldDef) : FieldDef :=
  { decl with value := decl.value.map f }

def MethodDef.mapValues (f : Expr → Expr) (m : MethodDef) : MethodDef :=
  { m with body := m.body.map (Stmt.mapValues f) }

def Member.mapValues (f : Expr → Expr) : Member → Member
  | .field decl => .field (decl.mapValue f)
  | .const k => .const k
  | .method m => .method (m.mapValues f)

def ClassDef.mapValues (f : Expr → Expr) (c : ClassDef) : ClassDef :=
  { c with
    constructor? := c.constructor?.map fun stmts => stmts.map (Stmt.mapValues f)
    members := c.members.map (Member.mapValues f) }

/-- The program with every explicit initializer of a field or a local replaced. -/
def mapValues (f : Expr → Expr) (p : Program) : Program :=
  { p with classes := p.classes.map (ClassDef.mapValues f) }

end Program

def Context.mapValues (f : Expr → Expr) (cx : Context) : Context :=
  { cx with program := cx.program.mapValues f }

theorem mapM_map_of_map {ε α β γ δ : Type} {g : α → β} {k : γ → δ} {h : α → Except ε γ}
    {h' : β → Except ε δ} (hstep : ∀ a, h' (g a) = k <$> h a) (items : List α) :
    (items.map g).mapM h' = List.map k <$> items.mapM h := by
  induction items with
  | nil => rfl
  | cons a rest ih =>
      rw [List.map_cons, List.mapM_cons, List.mapM_cons, ih, hstep]
      simp only [Functor.map_map, map_bind, bind_map_left, bind_pure_comp]
      rfl

theorem Emit.forM_map {α β : Type} (g : α → β) (F : β → Emit Unit) (items : List α) :
    (items.map g).forM F = items.forM fun a => F (g a) := by
  induction items with
  | nil => rfl
  | cons a rest ih =>
      change (F (g a) >>= fun _ => (rest.map g).forM F) = (F (g a) >>= fun _ => rest.forM _)
      rw [ih]

theorem Emit.lift_map_bind {α β γ : Type} (g : α → β) (r : Result α) (next : β → Emit γ) :
    (liftM (g <$> r) >>= next : Emit γ) = liftM r >>= fun a => next (g a) := by
  cases r <;> rfl

namespace Program

variable {p : Program} {f : Expr → Expr} {c : ClassDef}

theorem Stmt.mapValuesIn_eq (stmts : List Stmt) :
    mapValuesIn f stmts = stmts.map (Stmt.mapValues f) := by
  induction stmts with
  | nil => rfl
  | cons s rest ih => rw [mapValuesIn, ih, List.map_cons]

theorem Stmt.mapClause_eq (clause : Option Stmt) :
    mapClause f clause = clause.map (Stmt.mapValues f) := by
  cases clause <;> rfl

@[simp] theorem Stmt.isBlock_mapValues (s : Stmt) : (s.mapValues f).isBlock = s.isBlock := by
  cases s <;> rfl

@[simp] theorem Stmt.isBranch_mapValues (s : Stmt) : (s.mapValues f).isBranch = s.isBranch := by
  cases s <;> rfl

theorem ClassDef.fields_mapValues :
    (c.mapValues f).fields = c.fields.map (FieldDef.mapValue f) := by
  simp only [fields, mapValues, List.filterMap_map, List.map_filterMap]
  exact List.filterMap_congr fun member _ => by cases member <;> rfl

theorem ClassDef.consts_mapValues : (c.mapValues f).consts = c.consts := by
  simp only [consts, mapValues, List.filterMap_map]
  exact List.filterMap_congr fun member _ => by cases member <;> rfl

theorem ClassDef.methods_mapValues :
    (c.mapValues f).methods = c.methods.map (MethodDef.mapValues f) := by
  simp only [methods, mapValues, List.filterMap_map, List.map_filterMap]
  exact List.filterMap_congr fun member _ => by cases member <;> rfl

theorem ClassDef.findConst_mapValues (name : String) :
    (c.mapValues f).findConst name = c.findConst name := by
  rw [findConst, consts_mapValues]
  rfl

theorem ClassDef.isStatic_mapValues : (c.mapValues f).isStatic = c.isStatic := by
  have hmethods : (c.mapValues f).methods.all (·.isStatic) = c.methods.all (·.isStatic) := by
    rw [methods_mapValues, List.all_map]
    rfl
  rw [isStatic, hmethods, fields_mapValues]
  simp [isStatic, mapValues]

theorem ClassDef.initializes_mapValues : (c.mapValues f).initializes = c.initializes := by
  have hfields : (c.mapValues f).fields.any (·.value.isSome) = c.fields.any (·.value.isSome) := by
    simp [fields_mapValues, FieldDef.mapValue, Function.comp_def]
  rw [initializes, hfields]
  simp [initializes, mapValues]

theorem ClassDef.heldClasses_mapValues : (c.mapValues f).heldClasses = c.heldClasses := by
  rw [heldClasses, fields_mapValues, List.filterMap_map]
  rfl

theorem classOf_mapValues (id : ClassId) :
    (p.mapValues f).classOf id = ClassDef.mapValues f <$> p.classOf id := by
  unfold classOf
  rw [mapValues, List.getElem?_map]
  cases p.classes[id.index.toNat]? <;> rfl

theorem className_mapValues (id : ClassId) : (p.mapValues f).className id = p.className id := by
  unfold className
  rw [mapValues, List.getElem?_map]
  cases p.classes[id.index.toNat]? <;> rfl

theorem describe_mapValues (ty : Ty) : (p.mapValues f).describe ty = p.describe ty := by
  induction ty with
  | array element storage length ih =>
      cases storage <;> cases length <;> simp [describe, ih]
  | classStorage id | classRef id => simp [describe, className_mapValues]
  | _ => rfl

theorem globalClasses_mapValues : (p.mapValues f).globalClasses =
    List.map (fun entry => (entry.1, ClassDef.mapValues f entry.2)) <$> p.globalClasses := by
  have hids : (p.mapValues f).globalClassIds = p.globalClassIds.map id := (List.map_id _).symm
  rw [globalClasses, hids, globalClasses]
  refine mapM_map_of_map (fun id => ?_) _
  simp [classOf_mapValues]

theorem constructsWithin_mapValues (fuel : Nat) (id : ClassId) :
    (p.mapValues f).constructsWithin fuel id = p.constructsWithin fuel id := by
  induction fuel generalizing id with
  | zero => rfl
  | succ fuel ih =>
      simp only [constructsWithin, classOf_mapValues, bind_map_left, ClassDef.initializes_mapValues,
        ClassDef.heldClasses_mapValues, funext ih]

theorem needsConstruction_mapValues (id : ClassId) :
    (p.mapValues f).needsConstruction id = p.needsConstruction id := by
  have hlength : (p.mapValues f).classes.length = p.classes.length := List.length_map _
  rw [needsConstruction, hlength, constructsWithin_mapValues, needsConstruction]

theorem holdsConstructed_mapValues (ty : Ty) :
    (p.mapValues f).holdsConstructed ty = p.holdsConstructed ty := by
  unfold holdsConstructed
  cases ty.heldClass with
  | none => rfl
  | some id => exact needsConstruction_mapValues id

theorem layOut_mapValues (fuel : Nat) (walk : LayoutWalk) (id : ClassId) :
    (p.mapValues f).layOut fuel walk id = p.layOut fuel walk id := by
  induction fuel generalizing walk id with
  | zero => rfl
  | succ fuel ih =>
      have hlayOut : (p.mapValues f).layOut fuel = p.layOut fuel := funext₂ ih
      simp only [layOut, classOf_mapValues, bind_map_left, ClassDef.heldClasses_mapValues,
        ClassDef.isStatic_mapValues, hlayOut]

theorem layoutOrder_mapValues : (p.mapValues f).layoutOrder = p.layoutOrder := by
  have hlength : (p.mapValues f).classes.length = p.classes.length := List.length_map _
  have hids : (p.mapValues f).globalClassIds = p.globalClassIds := rfl
  have hlayOut : (p.mapValues f).layOut (p.classes.length + 1) = p.layOut (p.classes.length + 1) :=
    funext₂ fun walk id => layOut_mapValues _ walk id
  rw [layoutOrder, hlength, hids, hlayOut, layoutOrder]

theorem VarDecl.mapValue_id (decl : VarDecl) : decl.mapValue id = decl := by
  rw [mapValue, Option.map_id]
  rfl

theorem Stmt.mapValues_id (s : Stmt) : s.mapValues id = s := by
  induction s using Stmt.inductOn with
  | h s ih =>
  have hclause (clause : Option Stmt) (h : ∀ s ∈ clause, mapValues id s = s) :
      clause.map (mapValues id) = clause := by
    cases clause with
    | none => rfl
    | some s => exact congrArg some (h s rfl)
  cases s with
  | block stmts =>
      have hstmts : stmts.map (mapValues id) = stmts :=
        (List.map_congr_left ih).trans (List.map_id _)
      rw [mapValues, mapValuesIn_eq, hstmts]
  | declare decl => rw [mapValues, VarDecl.mapValue_id]
  | branch cond onTrue onFalse =>
      rw [mapValues, mapClause_eq, ih onTrue (by simp [children]), hclause onFalse fun s hs =>
        ih s (by simp_all [children])]
  | whileLoop cond body => rw [mapValues, ih body (by simp [children])]
  | doLoop body cond => rw [mapValues, ih body (by simp [children])]
  | forLoop start cond advance body =>
      rw [mapValues, mapClause_eq, mapClause_eq, ih body (by simp [children]),
        hclause start fun s hs => ih s (by simp_all [children]),
        hclause advance fun s hs => ih s (by simp_all [children])]
  | _ => rfl

theorem mapValues_id (p : Program) : p.mapValues id = p := by
  have hbody (stmts : Block) : stmts.map (Stmt.mapValues id) = stmts :=
    (List.map_congr_left fun s _ => Stmt.mapValues_id s).trans (List.map_id stmts)
  have hmember (m : Member) : m.mapValues id = m := by
    cases m with
    | field decl =>
        rw [Member.mapValues, FieldDef.mapValue, Option.map_id]
        rfl
    | const k => rfl
    | method m => rw [Member.mapValues, MethodDef.mapValues, hbody]
  have hclass (c : ClassDef) : c.mapValues id = c := by
    have hmembers : c.members.map (Member.mapValues id) = c.members :=
      (List.map_congr_left fun m _ => hmember m).trans (List.map_id _)
    have hconstructor : (c.constructor?.map fun stmts => stmts.map (Stmt.mapValues id)) =
        c.constructor? := (congrArg (Option.map · c.constructor?) (funext hbody)).trans
          (congrFun Option.map_id _)
    rw [ClassDef.mapValues, hmembers, hconstructor]
  have hclasses : p.classes.map (ClassDef.mapValues id) = p.classes :=
    (List.map_congr_left fun c _ => hclass c).trans (List.map_id _)
  rw [mapValues, hclasses]

end Program

namespace Context

variable {cx : Context} {f : Expr → Expr}

theorem classOf_mapValues (id : ClassId) :
    (cx.mapValues f).classOf id = ClassDef.mapValues f <$> cx.classOf id := by
  change lookedUp ((cx.program.mapValues f).classOf id) = _ <$> lookedUp (cx.program.classOf id)
  rw [Program.classOf_mapValues]
  cases cx.program.classOf id <;> rfl

theorem unmappedType_mapValues {α : Type} (ty : Ty) :
    (cx.mapValues f).unmappedType ty = (cx.unmappedType ty : Result α) := by
  change Except.error _ = Except.error _
  rw [show (cx.mapValues f).program.describe ty = cx.program.describe ty from
    describe_mapValues ty]
  rfl

/-! An expression looks up names, types and constants in the program, and none of these is the
initializer of a field or local. So it is printed as before. -/

mutual

theorem constValueOf_mapValues : ∀ value, (cx.mapValues f).constValue value = cx.constValue value
  | .array items => by
      rw [constValue, constValue, constItems_mapValues items]
      rfl
  | .bool _ | .int _ | .float _ | .str _ | .enumValue _ _ => rfl

theorem constItems_mapValues : ∀ items, (cx.mapValues f).constItems items = cx.constItems items
  | [] => rfl
  | item :: rest => by
      rw [constItems, constItems, constValueOf_mapValues item, constItems_mapValues rest]

end

theorem constValue_mapValues : (cx.mapValues f).constValue = cx.constValue :=
  funext constValueOf_mapValues

theorem constant_mapValues : (cx.mapValues f).constant = cx.constant := by
  funext owner name
  have ht : (cx.mapValues f).target = cx.target := rfl
  have hcurrent : (cx.mapValues f).current = cx.current := rfl
  unfold constant
  rw [ht]
  cases cx.target with
  | actionScript =>
      simp only [ActionScript.constant, ActionScript.classPrefix, hcurrent, classOf_mapValues,
        bind_map_left, ClassDef.consts_mapValues, ClassDef.findConst_mapValues,
        constValue_mapValues]
      rfl
  | cFamily d =>
      simp only [CFamily.constant, classOf_mapValues, bind_map_left, ClassDef.findConst_mapValues]
      rfl

theorem userCall_mapValues : (cx.mapValues f).userCall = cx.userCall := by
  funext receiver owner name isStatic args
  have ht : (cx.mapValues f).target = cx.target := rfl
  have hcurrent : (cx.mapValues f).current = cx.current := rfl
  unfold userCall
  rw [ht]
  cases cx.target with
  | actionScript =>
      simp only [ActionScript.userCall, ActionScript.classPrefix, hcurrent, classOf_mapValues,
        bind_map_left]
      rfl
  | cFamily d =>
      simp only [CFamily.userCall, classOf_mapValues, bind_map_left]
      rfl

/-- A conversion shows a type, which is described by the names of classes. -/
theorem conversion_mapValues {d : Dialect} :
    CFamily.conversion (cx.mapValues f) d = CFamily.conversion cx d := by
  funext hole ty
  have hletters : CFamily.conversionLetters (cx.mapValues f) d hole.format ty =
      CFamily.conversionLetters cx d hole.format ty := by
    unfold CFamily.conversionLetters
    cases hole.format with
    | some c => rfl
    | none =>
        cases ty with
        | int kind => cases kind <;> rfl
        | _ => first | rfl | exact unmappedType_mapValues _
  rw [CFamily.conversion, hletters, CFamily.conversion]

theorem printCall_mapValues {d : Dialect} :
    CFamily.printCall (cx.mapValues f) d = CFamily.printCall cx d := by
  funext receiver m lineEnd args
  have hformats : CFamily.holeFormats (cx.mapValues f) d = CFamily.holeFormats cx d := by
    funext holes
    rw [CFamily.holeFormats, conversion_mapValues, CFamily.holeFormats]
  unfold CFamily.printCall
  cases receiver with
  | some obj => rfl
  | none =>
      unfold CFamily.print
      rw [hformats, conversion_mapValues]
      rfl

theorem interpolated_mapValues :
    ActionScript.interpolated (cx.mapValues f) = ActionScript.interpolated cx := by
  have htail : ∀ first holes, ActionScript.interpolatedTail (cx.mapValues f) first holes =
      ActionScript.interpolatedTail cx first holes := by
    intro first holes
    induction holes generalizing first with
    | nil => rfl
    | cons entry rest ih =>
        rw [ActionScript.interpolatedTail, ih, ActionScript.interpolatedTail]; rfl
  funext holes suffix
  rw [ActionScript.interpolated, htail, ActionScript.interpolated]

mutual

/-- An expression is printed alike, whatever the initializers in the program are. -/
theorem code_mapValues : ∀ e : Expr, (cx.mapValues f).code e = cx.code e
  | .literal .. | .var .. | .this _ | .enumValue .. | .resource .. => rfl
  | .const owner name ty => by rw [code, constant_mapValues, code]
  | .field obj name ty => by rw [code, code_mapValues obj, code]; rfl
  | .property obj accessor ty => by rw [code, code_mapValues obj, code]; rfl
  | .call receiver (.user owner name isStatic) args ty => by
      rw [code, receiverOperand_mapValues receiver, operands_mapValues args, userCall_mapValues,
        code]
  | .call receiver (.builtin m) args ty => by
      have ht : (cx.mapValues f).target = cx.target := rfl
      simp only [code, ht, receiverOperand_mapValues receiver, operands_mapValues args,
        shown_mapValues args, printCall_mapValues]
      rfl
  | .index array position ty => by
    rw [code, code_mapValues array, code_mapValues position, code]; rfl
  | .unary op operand ty => by rw [code, code_mapValues operand, code]; rfl
  | .binary left op right ty => by rw [code, code_mapValues left, code_mapValues right, code]; rfl
  | .select cond onTrue onFalse ty => by
      rw [code, code_mapValues cond, code_mapValues onTrue, code_mapValues onFalse, code]; rfl
  | .interpolated parts suffix ty => by
      rw [code, holes_mapValues parts, interpolated_mapValues, code]
      rfl

theorem receiverOperand_mapValues : ∀ receiver : Option Expr,
    (cx.mapValues f).receiverOperand receiver = cx.receiverOperand receiver
  | none => rfl
  | some e => by rw [receiverOperand, code_mapValues e, receiverOperand]; rfl

theorem operands_mapValues : ∀ es : List Expr, (cx.mapValues f).operands es = cx.operands es
  | [] => rfl
  | e :: rest => by rw [operands, code_mapValues e, operands_mapValues rest, operands]; rfl

theorem holes_mapValues : ∀ parts : List Part, (cx.mapValues f).holes parts = cx.holes parts
  | [] => rfl
  | .mk hole e :: rest => by rw [holes, code_mapValues e, holes_mapValues rest, holes]; rfl

theorem shown_mapValues : ∀ es : List Expr, (cx.mapValues f).shown es = cx.shown es
  | [] => rfl
  | e :: rest => by
      have he := code_mapValues e
      have hrest := shown_mapValues rest
      cases e with
      | interpolated parts suffix ty => simp only [shown, holes_mapValues parts, hrest]
      | _ =>
          simp only [shown, he, hrest]
          rfl

end

theorem operand_mapValues (e : Expr) : (cx.mapValues f).operand e = cx.operand e := by
  rw [operand, code_mapValues, operand]
  rfl

end Context

namespace ActionScript

variable {cx : Context} {f : Expr → Expr}

theorem typeCode_mapValues : typeCode (cx.mapValues f) = typeCode cx := by
  funext ty
  induction ty with
  | array element storage length ih => rw [typeCode, ih, typeCode]
  | classStorage id | classRef id =>
      simp only [typeCode, Context.classOf_mapValues, bind_map_left]
      rfl
  | int kind => cases kind <;> rfl
  | null => exact Context.unmappedType_mapValues _
  | _ => rfl

theorem typed_mapValues : typed (cx.mapValues f) = typed cx := by
  funext name ty
  rw [typed, typeCode_mapValues, typed]
  rfl

theorem impliedInitializer_mapValues :
    impliedInitializer (cx.mapValues f) = impliedInitializer cx := by
  funext ty
  cases ty with
  | classStorage id =>
      simp only [impliedInitializer, Context.classOf_mapValues, bind_map_left]
      rfl
  | array element storage length => cases storage <;> rfl
  | _ => rfl

theorem assign_mapValues : assign (cx.mapValues f) = assign cx := by
  funext target op value
  simp only [assign, Context.code_mapValues, Context.operand_mapValues]
  rfl

end ActionScript

namespace CFamily

variable {cx : Context} {d : Dialect} {f : Expr → Expr}

theorem typeCode_mapValues : typeCode (cx.mapValues f) d = typeCode cx d := by
  funext ty
  induction ty with
  | array element storage length ih => rw [typeCode, ih, typeCode]
  | classStorage id | classRef id =>
      simp only [typeCode, Context.classOf_mapValues, bind_map_left]
      rfl
  | float kind => cases kind <;> rfl
  | null => exact Context.unmappedType_mapValues _
  | _ => rfl

theorem declaration_mapValues : declaration (cx.mapValues f) d = declaration cx d := by
  have hdimensions : ∀ ty, dimensions (cx.mapValues f) ty = dimensions cx ty := by
    intro ty
    induction ty with
    | array element storage length ih =>
        cases storage with
        | false => rfl
        | true =>
            cases length with
            | none => rfl
            | some n => rw [dimensions, ih, dimensions]
    | _ => rfl
  funext ty name
  rw [declaration, hdimensions, typeCode_mapValues, declaration]

theorem signature_mapValues (c : ClassDef) (m : MethodDef) :
    signature (cx.mapValues f) d (c.mapValues f) (m.mapValues f) = signature cx d c m := by
  rw [signature, typeCode_mapValues, declaration_mapValues]
  rfl

theorem constructCalls_mapValues : constructCalls (cx.mapValues f) = constructCalls cx := by
  funext depth place ty
  induction ty generalizing depth place with
  | classStorage id =>
      have hneeds : (cx.mapValues f).program.needsConstruction id =
          cx.program.needsConstruction id := needsConstruction_mapValues id
      rw [constructCalls, hneeds, Context.classOf_mapValues, constructCalls]
      cases cx.classOf id <;> rfl
  | array element storage length ih =>
      cases storage with
      | false => rfl
      | true =>
          have hholds : (cx.mapValues f).program.holdsConstructed (.array element true length) =
              cx.program.holdsConstructed (.array element true length) :=
                holdsConstructed_mapValues _
          simp only [constructCalls, hholds, ih]
          rfl
  | _ => rfl

theorem checkLoopStart_mapValues (s : Stmt) :
    checkLoopStart (cx.mapValues f) (s.mapValues f) = checkLoopStart cx s := by
  cases s with
  | declare decl =>
      have hholds : (cx.mapValues f).program.holdsConstructed decl.ty =
          cx.program.holdsConstructed decl.ty := holdsConstructed_mapValues _
      simp only [checkLoopStart, Stmt.mapValues, VarDecl.mapValue, hholds]
      rfl
  | _ => rfl

theorem assign_mapValues : assign (cx.mapValues f) = assign cx := by
  funext target op value
  simp only [assign, Context.code_mapValues]

theorem printedClasses_mapValues : printedClasses (cx.mapValues f) =
    List.map (fun entry => (entry.1.mapValues f, entry.2)) <$> printedClasses cx := by
  have hclasses : (cx.mapValues f).program.globalClasses =
      List.map
        (fun entry => (entry.1, ClassDef.mapValues f entry.2)) <$> cx.program.globalClasses :=
    globalClasses_mapValues
  have hneeds : (cx.mapValues f).program.needsConstruction = cx.program.needsConstruction :=
    funext needsConstruction_mapValues
  have hentries (entries : List (ClassId × ClassDef)) :
      (entries.map fun entry => (entry.1, entry.2.mapValues f)).mapM (fun entry => do
          return (entry.2, ← cx.program.needsConstruction entry.1)) =
        List.map (fun shown : ClassDef × Bool => (shown.1.mapValues f, shown.2)) <$>
          entries.mapM fun entry => do return (entry.2, ← cx.program.needsConstruction entry.1) :=
    mapM_map_of_map (fun entry => by simp) entries
  unfold printedClasses
  simp only [hclasses, hneeds, bind_map_left, hentries]
  cases cx.program.globalClasses with
  | error id => rfl
  | ok entries =>
      change lookedUp (List.map _ <$> entries.mapM _) = List.map _ <$> lookedUp (entries.mapM _)
      cases entries.mapM fun entry => do
        return (entry.2, ← cx.program.needsConstruction entry.1) <;> rfl

theorem structLayout_mapValues (c : ClassDef) :
    structLayout (cx.mapValues f) d (c.mapValues f) = structLayout cx d c := by
  have hempty : (c.mapValues f).fields.isEmpty = c.fields.isEmpty := by
    rw [ClassDef.fields_mapValues, List.isEmpty_map]
  unfold structLayout
  rw [hempty, ClassDef.fields_mapValues, declaration_mapValues, Emit.forM_map]
  rfl

/-- What is declared in front of the bodies does not depend on any initializer. -/
theorem declarations_mapValues : declarations (cx.mapValues f) d = declarations cx d := by
  have hmacros (c : ClassDef) : (c.mapValues f).consts.forM
      (macroLine (cx.mapValues f) (c.mapValues f)) = c.consts.forM (macroLine cx c) := by
    have hmacro : macroLine (cx.mapValues f) (c.mapValues f) = macroLine cx c := by
      funext k
      rw [macroLine, Context.constValue_mapValues]
      rfl
    rw [ClassDef.consts_mapValues, hmacro]
  have hprototypes (c : ClassDef) (constructed : Bool) :
      prototypes (cx.mapValues f) d (c.mapValues f) constructed =
        prototypes cx d c constructed := by
    unfold prototypes
    simp only [ClassDef.methods_mapValues, Emit.forM_map, signature_mapValues]
    rfl
  have htables (c : ClassDef) (k : ConstDef) :
      constTable (cx.mapValues f) d (c.mapValues f) k = constTable cx d c k := by
    simp only [constTable, typeCode_mapValues, Context.constValue_mapValues]
    rfl
  have horder : (cx.mapValues f).program.layoutOrder = cx.program.layoutOrder :=
    layoutOrder_mapValues
  unfold declarations
  simp only [printedClasses_mapValues, Emit.lift_map_bind, horder, Context.classOf_mapValues,
    Emit.forM_map, hmacros, hprototypes, htables, structLayout_mapValues,
    ClassDef.isStatic_mapValues]
  rfl

end CFamily

end Emitter
