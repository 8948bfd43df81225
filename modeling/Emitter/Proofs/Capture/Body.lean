import Emitter.ActionScript.File
import Emitter.CFamily.File
import Emitter.Proofs.Capture.Words
import Emitter.Proofs.Names.FileScope

/-!
# Variables that capture a name

A parameter or a local variable captures a bare name of the body of its function if both are printed
alike. The spellings of variables keep clear of reserved words and of all names that start with a
capital letter, so that little is left that can be captured.
-/

namespace Emitter

open Layout Number Program Text

theorem Target.exists_dialect {t : Target} (ht : t ≠ .actionScript) : ∃ d, t = .cFamily d := by
  cases t with
  | actionScript => contradiction
  | cFamily d => exact ⟨d, rfl⟩

namespace Program

/-- The variables that a statement declares. -/
def Stmt.declared (s : Stmt) : List String :=
  (match s with
    | .declare decl => [decl.name]
    | _ => []) ++
  s.children.attach.flatMap fun ⟨child, h⟩ =>
    have := sizeOf_lt_of_mem_children h
    child.declared
termination_by s

/-- A function of a class. -/
inductive Routine
  | method (m : MethodDef)
  | constructor

/-- The statements of a function. -/
def Routine.stmts (c : ClassDef) : Routine → Block
  | method m => m.body
  | constructor => c.constructor?.getD []

/-- The parameters and the local variables of a function. -/
def Routine.variables (c : ClassDef) (r : Routine) : List String :=
  (match r with
    | method m => m.params.map Param.name
    | constructor => []) ++
  (r.stmts c).flatMap Stmt.declared

/-- The fields that a function sets up before its statements run. -/
def Routine.fields (t : Target) (c : ClassDef) : Routine → List FieldDef
  | method _ => []
  | constructor => if t = .actionScript then [] else c.fields

end Program

namespace Context

/-- The body of a function between its braces. -/
def routine (cx : Context) (c : ClassDef) (r : Routine) : Emit Unit :=
  Emit.braced do
    (r.fields cx.target c).forM (CFamily.fieldSetup cx c)
    cx.statements (r.stmts c)

-- Behind the head of a method, and of a constructor in ActionScript, the body is printed so.
example (cx : Context) (c : ClassDef) (m : MethodDef) :
    cx.routine c (.method m) = cx.body m.body := rfl

example (p : Program) (current : Option ClassId) (c : ClassDef) (stmts : Block) :
    let cx : Context := ⟨p, .actionScript, current⟩
    ActionScript.constructorLines cx c stmts = (do
      Emit.newline
      Emit.line [.word "public", .gap, .word "function", .gap, .word c.name, .symbol "(",
        .symbol ")"]
      cx.routine { c with constructor? := some stmts } .constructor) := rfl

/-- The bare names in setting a field up. -/
def bareOfSetup (cx : Context) (f : FieldDef) : List BareName :=
  match f.ty.isStorage, f.value with
  | false, some e => .word "self" :: cx.bareNames e
  | _, _ => CFamily.constructionNames cx.program 0 [.word "self"] f.ty

/-- The bare names in the body of a function. -/
def bareOfRoutine (cx : Context) (c : ClassDef) (r : Routine) : List BareName :=
  (r.fields cx.target c).flatMap cx.bareOfSetup ++ cx.bareOfBlock (r.stmts c)

variable {cx : Context} {c : ClassDef} {r : Routine}

/-- In the C family the fields are set up first. -/
theorem constructorBody_eq {d : Dialect} (ht : cx.target = .cFamily d) :
    CFamily.constructorBody cx c = (do
      Emit.newline
      Emit.line (CFamily.constructorSignature c)
      cx.routine c .constructor) := by
  simp [routine, Routine.fields, ht, Routine.stmts, CFamily.constructorBody]

theorem shows_selfField (f : FieldDef) :
    cx.Shows [.word "self"] (CFamily.selfField cx f) := fun rest w => by
  simp [CFamily.selfField, localWord]

theorem lists_fieldSetup (f : FieldDef) :
    (CFamily.fieldSetup cx c f).Lists cx (cx.bareOfSetup f) := by
  have hplace : cx.Shows [.word "self"] (CFamily.selfField cx f) := shows_selfField f
  have hconstructed := CFamily.lists_constructCalls 0 hplace f.ty
  have hnote : ∀ notice, (Emit.note notice).Lists cx [] := Emit.lists_note
  unfold CFamily.fieldSetup bareOfSetup
  cases f.value with
  | none => cases f.ty.isStorage <;> exact hconstructed
  | some e =>
      cases f.ty.isStorage with
      | true => exact (hnote _).seq hconstructed
      | false =>
          refine Emit.lists_lift fun code hc => Emit.lists_line fun rest w => ?_
          simp [hplace.mem, Code.operator, (shows_code e hc).mem, or_assoc]

/-- The bare names in the body of a function are those that are listed for it. -/
theorem lists_routine (c : ClassDef) (r : Routine) :
    (cx.routine c r).Lists cx (cx.bareOfRoutine c r) :=
  ((Emit.lists_forM fun f _ => lists_fieldSetup f).seq
    (lists_statements fun s _ => lists_statement s)).braced

theorem allows_bareOfSetup (ht : cx.target ≠ .actionScript) (f : FieldDef) :
    ∀ b ∈ cx.bareOfSetup f, cx.target.allows b = true := by
  obtain ⟨d, ht⟩ := Target.exists_dialect ht
  have hself : (Target.cFamily d).allows (.word "self") = true := by cases d <;> rfl
  have hplace : ∀ b ∈ [BareName.word "self"], (Target.cFamily d).allows b = true := by
    simp [hself]
  intro b hb
  unfold bareOfSetup at hb
  rw [ht]
  split at hb
  case h_1 e _ _ =>
    rcases List.mem_cons.mp hb with rfl | hb
    · exact hself
    · exact ht ▸ allows_bareNames e b hb
  case h_2 => exact CFamily.allows_constructionNames _ 0 hplace hb

theorem allows_bareOfRoutine (c : ClassDef) (r : Routine) :
    ∀ b ∈ cx.bareOfRoutine c r, cx.target.allows b = true := by
  unfold bareOfRoutine
  rw [List.forall_mem_append]
  refine ⟨?_, allows_bareOfBlock fun s _ => allows_bareOfStmt s⟩
  cases r with
  | method m => simp [Routine.fields]
  | constructor =>
      by_cases ht : cx.target = .actionScript
      · simp [Routine.fields, ht]
      · exact allows_flatMap fun f _ => allows_bareOfSetup ht f

end Context

/-! A variable is captured if another name that stands bare in the body is spelled like it. Which
names can be follows from how each kind of name is spelled. -/

/-- The variable is spelled like the word. -/
def Target.Spells (t : Target) (name word : String) : Prop :=
  (word ∉ t.keywords.words ∧ camelCase name = word) ∨
    (camelCase name ∈ t.keywords.words ∧ word = camelCase name ++ "_")

/-- The name that the printed name of a declaration starts with. -/
def BareName.owner (p : Program) : BareName → String
  | type id | function id _ | constructor id => p.className id
  | enumeration id => p.enumName id
  | enumerator id index => ((p.enumerator? id index).map (·.1.name)).getD ""
  | _ => ""

namespace Program

variable {p : Program}

theorem startsCapital_constantName {owner : ClassId} (const : String)
    (h : startsCapital (p.className owner) = true) :
    startsCapital (p.constantName owner const) = true := by
  unfold className at h
  unfold constantName
  cases hclass : p.classes[owner.index.toNat]? with
  | none => simp [hclass, startsCapital] at h
  | some c =>
      simp only [hclass, Option.map_some, Option.getD_some] at h
      exact startsCapital_append (startsCapital_append h)

theorem startsCapital_enumeratorName (id : EnumId) (index : UInt64)
    (h : startsCapital ((BareName.enumerator id index).owner p) = true) :
    startsCapital (p.enumeratorName id index) = true := by
  unfold BareName.owner at h
  unfold enumeratorName
  cases hvalue : p.enumerator? id index with
  | none => simp [hvalue, startsCapital] at h
  | some entry =>
      simp only [hvalue, Option.map_some, Option.getD_some] at h
      exact startsCapital_append (startsCapital_append h)

end Program

namespace Context

/-- What makes a variable capture a bare name. It captures another variable or a method that is
spelled alike, an exposed word that it is spelled like, a counter that has its name, a constant of
the own class that is all in capitals what it is in camel case, and of what starts with the name of
a type only that of a type without a capital letter. -/
def Captures (cx : Context) (name : String) : BareName → Prop
  | .own other | .method other => cx.target.SpellsAlike name other
  | .counter depth => name = "_i" ++ toString depth
  | .fixed l => l.text ∈ cx.target.exposedWords ∧ camelCase name = l.text
  | .resource _ => False
  | .constant owner const =>
    if cx.target = .actionScript then
      camelCase name = upperSnakeCase (cx.program.emittedName owner const)
    else startsCapital (cx.program.className owner) = false ∧
      cx.target.Spells name (cx.program.constantName owner const)
  | b => startsCapital (b.owner cx.program) = false ∧ cx.target.Spells name (b.text cx)

variable {cx : Context} {name : String} {b : BareName}

theorem localName_eq_iff_of_owner {owner word : String}
    (h : startsCapital owner = true → startsCapital word = true) :
    cx.target.localName name = word ↔ startsCapital owner = false ∧ cx.target.Spells name word := by
  rw [Target.localName_eq_iff]
  refine ⟨fun hspells => ⟨?_, hspells⟩, And.right⟩
  have hword : cx.target.localName name = word := Target.localName_eq_iff.mpr hspells
  rw [← Bool.not_eq_true]
  intro howner
  have hcapital := h howner
  rw [← hword, Target.startsCapital_localName] at hcapital
  contradiction

/-- A variable is printed like a bare name of a body exactly if it captures it. -/
theorem localName_eq_text_iff (hb : cx.target.allows b = true) :
    cx.target.localName name = b.text cx ↔ cx.Captures name b := by
  cases b with
  | own other => exact Target.localName_eq_localName_iff
  | method other => exact Target.localName_eq_localName_iff
  | counter depth => exact Target.localName_eq_counter_iff _ depth
  | fixed l => exact Target.localName_eq_iff_of_isBodyWord hb
  | type id | enumeration id => exact localName_eq_iff_of_owner fun h => h
  | function owner method =>
      exact localName_eq_iff_of_owner fun h => startsCapital_append (startsCapital_append h)
  | constructor id =>
      exact localName_eq_iff_of_owner fun h => startsCapital_append (startsCapital_append h)
  | constant owner const =>
      simp only [Captures]
      split_ifs with ht
      · rw [BareName.text_constant_of_actionScript ht, ht]
        exact Target.localName_eq_upperSnakeCase_iff _
      · obtain ⟨d, ht⟩ := Target.exists_dialect ht
        rw [BareName.text_constant_of_cFamily ht]
        exact localName_eq_iff_of_owner (Program.startsCapital_constantName const)
  | enumerator id index =>
      exact localName_eq_iff_of_owner (Program.startsCapital_enumeratorName id index)
  | resource resource =>
      refine iff_of_false (fun h => ?_) id
      have hcapital : startsCapital (CFamily.resourceName resource) = true :=
        startsCapital_append rfl
      rw [← BareName.text, ← h, Target.startsCapital_localName] at hcapital
      contradiction

end Context

/-- The bare names in a printed body are those that are listed for it, and a variable is printed
like one of them exactly if it captures it. -/
theorem printed_alike_iff_captures {cx : Context} {c : ClassDef} {r : Routine} {steps : List Step}
    (h : cx.routine c r = ⟨steps, .ok ()⟩) :
    (∀ w, w ∈ Code.bare (steps.flatMap Step.code) ↔ ∃ b ∈ cx.bareOfRoutine c r, w = b.text cx) ∧
    ∀ x, ∀ b ∈ cx.bareOfRoutine c r,
      cx.target.localName x = b.text cx ↔ cx.Captures x b := by
  refine ⟨fun w => ?_, fun x b hb => ?_⟩
  · exact (Context.lists_routine c r steps () h).mem_bare
  · exact Context.localName_eq_text_iff (Context.allows_bareOfRoutine c r b hb)

/-- A method without parameters that gives a number. -/
def Program.MethodDef.three : MethodDef :=
  ⟨"Count", .exported, none, true, [], .int .int, [.returnValue (some (.ofInt 3))]⟩

/-- A method that keeps what another one gives in a variable of that one's name in lower case. -/
def Program.MethodDef.counted : MethodDef :=
  ⟨"Total", .exported, none, true, [], .int .int,
    [.declare ⟨"count", .int .int, some (.call none (.user ⟨0⟩ "Count" true) [] (.int .int))⟩,
      .returnValue (some (.var "count" (.int .int)))]⟩

def Program.ClassDef.counter : ClassDef :=
  ⟨"Gauge", .exported, none, none, [.method .three, .method .counted], []⟩

def Program.counterProgram : Program := ⟨[], [.counter], [.classDef ⟨0⟩], [], .empty⟩

/-- In C the name of the method starts with that of its class, and is not captured. -/
theorem printed_alike_iff_captures_counted : ∃ steps,
    Context.routine ⟨Program.counterProgram, .cFamily .standard, none⟩ .counter (.method .counted) =
      ⟨steps, .ok ()⟩ ∧
    "Gauge_Count" ∈ Code.bare (steps.flatMap Step.code) ∧
    (Target.cFamily .standard).localName "count" ≠ "Gauge_Count" := by
  let cx : Context := ⟨Program.counterProgram, .cFamily .standard, none⟩
  have hok : (cx.routine .counter (.method .counted)).outcome = .ok () :=
    Result.eq_ok_of_toOption (by decide +kernel)
  have hmem : .function ⟨0⟩ "Count" ∈ cx.bareOfRoutine .counter (.method .counted) := by
    have hcall : .function ⟨0⟩ "Count" ∈ cx.bareNames
        (.call none (.user ⟨0⟩ "Count" true) [] (.int .int)) :=
      cx.bareOwn_subset _ (List.mem_singleton.mpr rfl)
    simp [Context.bareOfRoutine, Routine.stmts, Program.MethodDef.counted, Context.bareOfBlock,
      Context.bareOfStmt, Context.bareOfSimple, Context.bareOfLocal, CFamily.localNames,
      Ty.isStorage, cx, hcall]
  have hnot : ¬cx.Captures "count" (.function ⟨0⟩ "Count") := fun h => by
    exact absurd h.1 (by decide)
  obtain ⟨hbare, halike⟩ := printed_alike_iff_captures (congrArg (Emit.mk _) hok)
  exact ⟨_, congrArg (Emit.mk _) hok, (hbare _).mpr ⟨_, hmem, rfl⟩, fun h =>
    hnot ((halike "count" _ hmem).mp h)⟩

/-- In ActionScript the variable captures the method: the names differ in the source, and in the
printed body the variable is set to a call of itself. -/
theorem captures_method_counted :
    (Routine.method .counted).variables .counter = ["count"] ∧
    "count" ∉ Program.ClassDef.counter.members.map Member.name ∧
    (∃ steps, Context.routine ⟨Program.counterProgram, .actionScript, some ⟨0⟩⟩ .counter
      (.method .counted) = ⟨steps, .ok ()⟩) ∧
    .method "Count" ∈ Context.bareOfRoutine ⟨Program.counterProgram, .actionScript, some ⟨0⟩⟩
      .counter (.method .counted) ∧
    Target.actionScript.localName "count" =
      BareName.text ⟨Program.counterProgram, .actionScript, some ⟨0⟩⟩ (.method "Count") ∧
    (generate "as" Program.counterProgram ⟨⟨"out"⟩, none⟩).files = .ok [⟨⟨"out/Gauge.as"⟩,
      "package\n\x7b\n\timport flash.utils.ByteArray;\n\n\tpublic class Gauge\n\t\x7b\n\n" ++
      "\t\tpublic static function count() : int\n\t\t\x7b\n\t\t\treturn 3;\n\t\t\x7d\n\n" ++
      "\t\tpublic static function total() : int\n\t\t\x7b\n" ++
      "\t\t\tvar count : int = count();\n\t\t\treturn count;\n\t\t\x7d\n\t\x7d\n\x7d\n"⟩] := by
  let cx : Context := ⟨Program.counterProgram, .actionScript, some ⟨0⟩⟩
  have hvariables : (Routine.method .counted).variables .counter = ["count"] := by
    simp [Routine.variables, Routine.stmts, Program.MethodDef.counted, Stmt.declared,
      Stmt.children]
  have hok : (cx.routine .counter (.method .counted)).outcome = .ok () :=
    Result.eq_ok_of_toOption (by decide +kernel)
  have hcall : .method "Count" ∈ cx.bareNames
      (.call none (.user ⟨0⟩ "Count" true) [] (.int .int)) :=
    cx.bareOwn_subset _ (List.mem_singleton.mpr rfl)
  have hmem : .method "Count" ∈ cx.bareOfRoutine .counter (.method .counted) := by
    simp [Context.bareOfRoutine, Routine.stmts, Program.MethodDef.counted, Context.bareOfBlock,
      Context.bareOfStmt, Context.bareOfSimple, Context.bareOfLocal, ActionScript.localNames,
      Ty.isStorage, cx, hcall]
  exact ⟨hvariables, by decide, ⟨_, congrArg (Emit.mk _) hok⟩, hmem, by decide +kernel,
    Result.eq_ok_of_toOption (by decide +kernel)⟩

end Emitter
