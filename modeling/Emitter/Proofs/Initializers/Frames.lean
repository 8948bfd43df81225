import Emitter.Proofs.Initializers.Replaced
import Emitter.Proofs.Statement.Nesting
import Emitter.Proofs.Statement.Warnings

/-!
# Frames around initializers

What is printed of a statement is a frame with a place for the initializer of each local that has
room for one. The frame is the same whatever the initializers are, and each of them is printed in
its place and nowhere else.
-/

namespace Emitter

open Layout Program

/-- The frame with what is given put in its places, the first in the first place. -/
def fill {α : Type} : List (Option α) → List (List α) → List α
  | [], _ => []
  | some a :: frame, given => a :: fill frame given
  | none :: frame, [] => fill frame []
  | none :: frame, g :: given => g ++ fill frame given

/-- How many places the frame has. -/
def places {α : Type} (frame : List (Option α)) : Nat := frame.countP Option.isNone

section Fill

variable {α : Type} {frame : List (Option α)} {given : List (List α)}

@[simp] theorem fill_map_some (as : List α) (given : List (List α)) :
    fill (as.map some) given = as := by
  induction as with
  | nil => rfl
  | cons a as ih => simp [fill, ih]

@[simp] theorem places_map_some (as : List α) : places (as.map some) = 0 := by
  simp [places, List.countP_map, Function.comp_def]

@[simp] theorem places_append (frame more : List (Option α)) :
    places (frame ++ more) = places frame + places more := List.countP_append

@[simp] theorem places_cons_some (a : α) (frame : List (Option α)) :
    places (some a :: frame) = places frame := by
  simp [places]

@[simp] theorem places_cons_none (frame : List (Option α)) :
    places (none :: frame) = places frame + 1 := by
  simp [places]

/-- What is in front of the first place. -/
theorem fill_append_of_map_some (as : List α) (frame : List (Option α)) (given : List (List α)) :
    fill (as.map some ++ frame) given = as ++ fill frame given := by
  induction as with
  | nil => rfl
  | cons a as ih => simp [fill, ih]

theorem fill_append {more : List (Option α)} {rest : List (List α)}
    (h : places frame = given.length) :
    fill (frame ++ more) (given ++ rest) = fill frame given ++ fill more rest := by
  induction frame generalizing given with
  | nil =>
      obtain rfl : given = [] := List.eq_nil_of_length_eq_zero h.symm
      rfl
  | cons part frame ih =>
      cases part with
      | some a =>
          have hrest : places frame = given.length := by simpa using h
          simp [fill, ih hrest]
      | none =>
          cases given with
          | nil => simp at h
          | cons g given =>
              have hrest : places frame = given.length := by simpa using h
              simp [fill, ih hrest]

end Fill

/-! An emission is followed with every initializer replaced by any other. Its frame is what stays
the same, and what changes stands in the places of the frame. -/

namespace Step

/-- The step, with what it prints one lexeme after the other. -/
def pieces : Step → List Step
  | .put code => code.map fun l => .put [l]
  | step => [step]

/-- What is printed for an initializer. -/
def initialValue (code : Code) : List Step := (Step.put (Code.operator "=" ++ code)).pieces

end Step

/-- The initializers that are printed: those of the declarations whose type leaves room for one. -/
def Program.initialValues (decls : List VarDecl) : List Expr :=
  (decls.filter fun decl => !decl.ty.isStorage).filterMap VarDecl.value

@[simp] theorem Program.initialValues_nil : initialValues [] = [] := rfl

@[simp] theorem Program.initialValues_append (first rest : List VarDecl) :
    initialValues (first ++ rest) = initialValues first ++ initialValues rest := by
  simp [initialValues]

@[simp] theorem Program.initialValues_flatMap {α : Type} (f : α → List VarDecl) (items : List α) :
    initialValues (items.flatMap f) = items.flatMap fun item => initialValues (f item) := by
  induction items with
  | nil => rfl
  | cons item rest ih => simp [ih]

theorem Program.initialValues_singleton (decl : VarDecl) :
    initialValues [decl] = if decl.ty.isStorage then [] else decl.value.toList := by
  cases hstorage : decl.ty.isStorage <;> cases hvalue : decl.value <;>
    simp [initialValues, hstorage, hvalue]

namespace Emit

variable {α β : Type} {cx : Context} {values more : List Expr} {e e' : (Expr → Expr) → Emit Unit}

/-- Whatever the values are replaced by, the emission prints one frame with a place for each value,
and in each place the code of what replaces it. -/
def Framed (cx : Context) (values : List Expr) (e : (Expr → Expr) → Emit Unit) : Prop :=
  ∃ frame : List (Option Step), places frame = values.length ∧
    ∀ f steps, e f = ⟨steps, .ok ()⟩ → ∃ codes, values.mapM (fun v => cx.code (f v)) = .ok codes ∧
      steps.flatMap Step.pieces = fill frame (codes.map Step.initialValue)

theorem Framed.of_eq (h : Framed cx values e') (he : ∀ f, e f = e' f) : Framed cx values e :=
  funext he ▸ h

theorem framed_of_ne_ok (h : ∀ f steps, e f ≠ ⟨steps, .ok ()⟩) : Framed cx values e :=
  ⟨List.replicate values.length none, by simp [places, List.countP_replicate],
    fun f steps hsteps => absurd hsteps (h f steps)⟩

/-- An emission without places. -/
theorem framed_const (given : Emit Unit) : Framed cx [] fun _ => given :=
  ⟨(given.steps.flatMap Step.pieces).map some, places_map_some _, fun f steps hsteps =>
    ⟨[], rfl, by rw [fill_map_some, show given = _ from hsteps]⟩⟩

theorem Framed.seq (h : Framed cx values e) (h' : Framed cx more e') :
    Framed cx (values ++ more) fun f => (do e f; e' f) := by
  obtain ⟨frame, hplaces, hframe⟩ := h
  obtain ⟨frame', hplaces', hframe'⟩ := h'
  refine ⟨frame ++ frame', by simp [hplaces, hplaces'], fun f steps hsteps => ?_⟩
  obtain ⟨⟨⟩, first, rest, hfirst, hrest, rfl⟩ := bind_eq_ok.mp hsteps
  obtain ⟨codes, hcodes, hfirst⟩ := hframe f first hfirst
  obtain ⟨codes', hcodes', hrest⟩ := hframe' f rest hrest
  have hlength : values.length = codes.length := (Result.forall₂_of_mapM_eq_ok hcodes).length_eq
  refine ⟨codes ++ codes', ?_, ?_⟩
  · rw [List.mapM_append, hcodes, hcodes']
    rfl
  · rw [List.flatMap_append, List.map_append, hfirst, hrest,
      fill_append (by simp [hplaces, hlength])]

theorem Framed.behind (given : Emit Unit) (h : Framed cx values e) :
    Framed cx values fun f => (do given; e f) := (framed_const given).seq h

theorem Framed.before (h : Framed cx values e) (given : Emit Unit) :
    Framed cx values fun f => (do e f; given) := by
  simpa using h.seq (framed_const given)

/-- Steps around an emission. -/
theorem Framed.between (first last : List Step) (h : Framed cx values e)
    (he' : ∀ f steps, e' f = ⟨steps, .ok ()⟩ → ∃ inner, e f = ⟨inner, .ok ()⟩ ∧
      steps = first ++ (inner ++ last)) : Framed cx values e' := by
  obtain ⟨frame, hplaces, hframe⟩ := (h.before (ofSteps last)).behind (ofSteps first)
  refine ⟨frame, hplaces, fun f steps hsteps => ?_⟩
  obtain ⟨inner, hinner, rfl⟩ := he' f steps hsteps
  have hdone : (do ofSteps first; e f; ofSteps last) = ⟨first ++ (inner ++ last), .ok ()⟩ := by
    rw [hinner]
    rfl
  exact hframe f _ hdone

theorem Framed.indented (h : Framed cx values e) : Framed cx values fun f => (e f).indented :=
  h.between [.indent] _ fun _ _ => indented_eq_ok.mp

theorem Framed.braced (h : Framed cx values e) : Framed cx values fun f => (e f).braced :=
  h.between [.put [.symbol "\x7b"], .newline, .indent] _ fun _ _ => braced_eq_ok.mp

/-- What is looked up first does not depend on the values. -/
theorem framed_lift {r : (Expr → Expr) → Result α} (r₀ : Result α)
    {next : (Expr → Expr) → α → Emit Unit} (hr : ∀ f, r f = r₀)
    (h : ∀ a, r₀ = .ok a → Framed cx values fun f => next f a) :
    Framed cx values fun f => liftM (r f) >>= next f := by
  cases hr₀ : r₀ with
  | error fault =>
      refine framed_of_ne_ok fun f steps hsteps => ?_
      obtain ⟨a, ha, -⟩ := liftM_bind_eq_ok.mp hsteps
      simp [hr, hr₀] at ha
  | ok a =>
      refine (h a hr₀).of_eq fun f => ?_
      rw [hr, hr₀]
      rfl

theorem framed_forM {F : (Expr → Expr) → α → Emit Unit} {g : α → List Expr} {items : List α}
    (h : ∀ item ∈ items, Framed cx (g item) fun f => F f item) :
    Framed cx (items.flatMap g) fun f => items.forM (F f) := by
  induction items with
  | nil => exact framed_const (pure ())
  | cons item rest ih =>
      obtain ⟨hitem, hrest⟩ := List.forall_mem_cons.mp h
      exact hitem.seq (ih hrest)

/-- A place for one value, with code around it. -/
theorem framed_value {v : Expr} (first last : List Step)
    (h : ∀ f steps, e f = ⟨steps, .ok ()⟩ → ∃ code, cx.code (f v) = .ok code ∧
      steps.flatMap Step.pieces = first ++ (Step.initialValue code ++ last)) : Framed cx [v] e := by
  refine ⟨first.map some ++ none :: last.map some, by simp, fun f steps hsteps => ?_⟩
  obtain ⟨code, hcode, hpieces⟩ := h f steps hsteps
  refine ⟨[code], by rw [List.mapM_cons, hcode]; rfl, ?_⟩
  rw [hpieces, fill_append_of_map_some, List.map_singleton, fill, fill_map_some]

end Emit

theorem ActionScript.framed_initializer {cx : Context} (name : String) (ty : Ty)
    (value : Option Expr) : Emit.Framed cx (initialValues [⟨name, ty, value⟩]) fun f =>
      initializer (cx.mapValues f) name ty (value.map f) := by
  refine Emit.framed_lift _ (fun f => by rw [impliedInitializer_mapValues])
    fun implied himplied => ?_
  have hstorage := isStorage_iff_isSome himplied
  rw [initialValues_singleton, hstorage]
  cases implied with
  | some code =>
      refine (Emit.framed_const (do
        Emit.put (Code.operator "=" ++ code)
        if value.isSome then Emit.note (.initializerDropped cx.target name))).of_eq fun f => ?_
      rw [Option.isSome_map]
      rfl
  | none =>
      cases value with
      | none => exact Emit.framed_const (pure ())
      | some e =>
          refine Emit.framed_value [] [] fun f steps hsteps => ?_
          obtain ⟨code, hcode, hput⟩ := Emit.liftM_bind_eq_ok.mp hsteps
          obtain rfl := Emit.ofSteps_eq_ok.mp hput
          rw [Context.code_mapValues] at hcode
          exact ⟨code, hcode, by simp [Step.initialValue]⟩

theorem CFamily.framed_declareLocal {cx : Context} {d : Dialect} (decl : VarDecl) :
    Emit.Framed cx (initialValues [decl]) fun f =>
      declareLocal (cx.mapValues f) d (decl.mapValue f) := by
  obtain ⟨name, ty, value⟩ := decl
  refine Emit.framed_lift (declaration cx d ty (cx.localWord name)) (fun f => ?_)
    fun type _ => ?_
  · rw [declaration_mapValues]
    rfl
  refine Emit.Framed.behind (Emit.put type) ?_
  simp only [VarDecl.mapValue, initialValues_singleton]
  by_cases hstorage : ty.isStorage = true
  · simp only [hstorage, ↓reduceIte, Option.isSome_map]
    exact Emit.framed_const (do
      if value.isSome then Emit.note (.initializerDropped cx.target name)
      Emit.put zeros)
  · simp only [hstorage, Bool.false_eq_true, ↓reduceIte]
    cases value with
    | none => exact Emit.framed_const (pure ())
    | some e =>
        refine Emit.framed_value [] [] fun f steps hsteps => ?_
        obtain ⟨code, hcode, hput⟩ := Emit.liftM_bind_eq_ok.mp hsteps
        obtain rfl := Emit.ofSteps_eq_ok.mp hput
        rw [Context.code_mapValues] at hcode
        exact ⟨code, hcode, by simp [Step.initialValue]⟩

namespace Context

variable {cx : Context}

theorem framed_declareLocal (decl : VarDecl) : Emit.Framed cx (initialValues [decl]) fun f =>
    (cx.mapValues f).declareLocal (decl.mapValue f) := by
  have ht (f : Expr → Expr) : (cx.mapValues f).target = cx.target := rfl
  simp only [declareLocal, ht]
  cases cx.target with
  | cFamily d => exact CFamily.framed_declareLocal decl
  | actionScript =>
      refine Emit.framed_lift (ActionScript.typed cx decl.name decl.ty) (fun f => ?_)
        fun code _ => ?_
      · rw [ActionScript.typed_mapValues]
        rfl
      · exact (ActionScript.framed_initializer decl.name decl.ty decl.value).behind _

theorem inline_mapValues (f : Expr → Expr) (e : Expr) :
    (cx.mapValues f).inline e = cx.inline e := by
  rw [inline, code_mapValues, inline]

theorem assign_mapValues (f : Expr → Expr) : (cx.mapValues f).assign = cx.assign := by
  have ht : (cx.mapValues f).target = cx.target := rfl
  funext target op value
  unfold assign
  rw [ht, ActionScript.assign_mapValues, CFamily.assign_mapValues]

theorem framed_simple (s : Stmt) : Emit.Framed cx (initialValues s.ownLocals) fun f =>
    (cx.mapValues f).simple (s.mapValues f) := by
  cases s with
  | declare decl => exact framed_declareLocal decl
  | eval e =>
      refine (Emit.framed_const (cx.simple (.eval e))).of_eq fun f => ?_
      simp only [Stmt.mapValues, simple, inline_mapValues]
  | assign target op value =>
      refine (Emit.framed_const (cx.simple (.assign target op value))).of_eq fun f => ?_
      simp only [Stmt.mapValues, simple, assign_mapValues]
  | _ => exact Emit.framed_const (liftM (cx.unsupported .forClause : Result Unit))

/-- The local of a clause is the only one in it. -/
theorem framed_clause (s : Stmt) : Emit.Framed cx (initialValues s.locals) fun f =>
    (cx.mapValues f).simple (s.mapValues f) := by
  by_cases hchildren : s.children = []
  · rw [Stmt.locals_eq, hchildren, List.flatMap_nil, List.append_nil]
    exact framed_simple s
  · refine Emit.framed_of_ne_ok fun f steps hsteps => ?_
    cases s with
    | block | branch | whileLoop | doLoop | forLoop => cases (Emit.mk.inj hsteps).2
    | _ => exact hchildren rfl

theorem afterSimple_mapValues (f : Expr → Expr) (s : Stmt) :
    (cx.mapValues f).afterSimple (s.mapValues f) = cx.afterSimple s := by
  have ht : (cx.mapValues f).target = cx.target := rfl
  unfold afterSimple
  rw [ht]
  cases s with
  | declare decl =>
      simp only [Stmt.mapValues, CFamily.constructLocal, CFamily.constructCalls_mapValues]
      cases cx.target <;> rfl
  | _ => cases cx.target <;> rfl

theorem framed_simpleLine (s : Stmt) : Emit.Framed cx (initialValues s.ownLocals) fun f =>
    (cx.mapValues f).simpleLine (s.mapValues f) := by
  refine ((framed_simple s).before (do
    Emit.line [.symbol ";"]
    cx.afterSimple s)).of_eq fun f => ?_
  rw [simpleLine, afterSimple_mapValues]

theorem framed_startClause (start : Option Stmt) :
    Emit.Framed cx (initialValues (start.toList.flatMap Stmt.locals)) fun f =>
      (cx.mapValues f).startClause (start.map (Stmt.mapValues f)) := by
  cases start with
  | none => exact Emit.framed_const (pure ())
  | some s =>
      have ht (f : Expr → Expr) : (cx.mapValues f).target = cx.target := rfl
      simp only [Option.toList_some, List.flatMap_singleton, Option.map_some, startClause,
        loopStart,
        ht, CFamily.checkLoopStart_mapValues]
      cases cx.target with
      | actionScript => exact (framed_clause s).behind (pure ())
      | cFamily d =>
          exact (framed_clause s).behind (liftM (CFamily.checkLoopStart cx s : Result Unit))

theorem framed_advanceClause (advance : Option Stmt) :
    Emit.Framed cx (initialValues (advance.toList.flatMap Stmt.locals)) fun f =>
      (cx.mapValues f).advanceClause (advance.map (Stmt.mapValues f)) := by
  cases advance with
  | none => exact Emit.framed_const (pure ())
  | some s => 
    simp only [Option.toList_some, List.flatMap_singleton]
    exact (framed_clause s).behind (Emit.put [.gap])

theorem framed_loopHead (start advance : Option Stmt) (cond : Option Expr) :
    Emit.Framed cx (initialValues ((start.toList ++ advance.toList).flatMap Stmt.locals)) fun f =>
      (cx.mapValues f).loopHead (start.map (Stmt.mapValues f)) cond
        (advance.map (Stmt.mapValues f)) := by
  have hcond (f : Expr → Expr) : (cx.mapValues f).condClause cond = cx.condClause cond := by
    cases cond <;> simp only [condClause, inline_mapValues]
  simp only [loopHead_eq, hcond, List.flatMap_append, initialValues_append]
  exact ((framed_startClause start).seq
    ((((framed_advanceClause advance).before _).behind _).behind _ |>.behind _)).behind _

theorem framed_nested {values : List Expr} {printed : (Expr → Expr) → Emit Unit} (s : Stmt)
    (h : Emit.Framed cx values printed) :
    Emit.Framed cx values fun f => nested (s.mapValues f) (printed f) := by
  simp only [nested, Stmt.isBlock_mapValues]
  split
  · exact h.behind _
  · exact h.indented.behind _

theorem framed_alternative {values : List Expr} {printed : (Expr → Expr) → Emit Unit} (s : Stmt)
    (h : Emit.Framed cx values printed) :
    Emit.Framed cx values fun f => alternative (s.mapValues f) (printed f) := by
  have hnested := framed_nested s h
  simp only [alternative, Stmt.isBranch_mapValues]
  split
  · exact (h.behind _).behind _
  · exact hnested.behind _

theorem framed_statements {stmts : List Stmt} (h : ∀ s ∈ stmts,
    Emit.Framed cx (initialValues s.locals) fun f => (cx.mapValues f).statement (s.mapValues f)) :
    Emit.Framed cx (initialValues (stmts.flatMap Stmt.locals)) fun f =>
      (cx.mapValues f).statements (stmts.map (Stmt.mapValues f)) := by
  induction stmts with
  | nil => exact Emit.framed_const (pure ())
  | cons s rest ih =>
      obtain ⟨hs, hrest⟩ := List.forall_mem_cons.mp h
      simpa [statements] using hs.seq (ih hrest)

/-- A statement is printed as one frame, with a place for each local's initializer. -/
theorem framed_statement (s : Stmt) : Emit.Framed cx (initialValues s.locals) fun f =>
    (cx.mapValues f).statement (s.mapValues f) := by
  induction s using Stmt.inductOn with
  | h s ih =>
  have hhead (keyword : String) (cond : Expr) (f : Expr → Expr) :
      (cx.mapValues f).head keyword cond = cx.head keyword cond := by
    simp only [head, inline_mapValues]
  have hchildren : s.ownLocals = [] → s.locals = s.children.flatMap Stmt.locals := fun hown => by
    rw [Stmt.locals_eq, hown, List.nil_append]
  cases s with
  | block stmts =>
      simp only [Stmt.mapValues, Stmt.mapValuesIn_eq, statement, hchildren rfl]
      exact (framed_statements ih).braced
  | eval e => exact framed_simpleLine (.eval e)
  | assign target op value => exact framed_simpleLine (.assign target op value)
  | declare decl => exact framed_simpleLine (.declare decl)
  | branch cond onTrue onFalse =>
      have htrue := framed_nested onTrue (ih onTrue (by simp [Stmt.children]))
      rw [hchildren rfl]
      cases onFalse with
      | none =>
          simp only [Stmt.mapValues, Stmt.mapClause, statement, hhead]
          simpa [Stmt.children] using htrue.behind (cx.head "if" cond)
      | some onFalse =>
          have hfalse := framed_alternative onFalse (ih onFalse (by simp [Stmt.children]))
          simp only [Stmt.mapValues, Stmt.mapClause, statement, hhead]
          simpa [Stmt.children] using (htrue.seq hfalse).behind (cx.head "if" cond)
  | whileLoop cond body =>
      have hbody := framed_nested body (ih body (by simp [Stmt.children]))
      simp only [Stmt.mapValues, statement, hhead, hchildren rfl]
      simpa [Stmt.children] using hbody.behind (cx.head "while" cond)
  | doLoop body cond =>
      have hbody := framed_nested body (ih body (by simp [Stmt.children]))
      simp only [Stmt.mapValues, statement, hhead, hchildren rfl]
      simpa [Stmt.children] using (hbody.before (do
        cx.head "while" cond
        Emit.line [.symbol ";"])).behind (Emit.put [.word "do"])
  | forLoop start cond advance body =>
      have hbody := framed_nested body (ih body (by simp [Stmt.children]))
      simp only [Stmt.mapValues, Stmt.mapClause_eq, statement, hchildren rfl]
      simpa [Stmt.children] using (framed_loopHead start advance cond).seq hbody
  | returnValue value =>
      refine (Emit.framed_const (cx.returned value)).of_eq fun f => ?_
      cases value <;> simp only [Stmt.mapValues, statement, returned, inline_mapValues]
  | «throwError» message =>
      refine (Emit.framed_const (cx.thrown message)).of_eq fun f => ?_
      have ht : (cx.mapValues f).target = cx.target := rfl
      simp only [Stmt.mapValues, statement, thrown, ht, inline_mapValues]
      rfl
  | breakLoop => exact Emit.framed_const (Emit.line [.word "break", .symbol ";"])
  | continueLoop => exact Emit.framed_const (Emit.line [.word "continue", .symbol ";"])
  | native text => exact Emit.framed_const (Emit.lines text)

theorem framed_body (stmts : Block) :
    Emit.Framed cx (initialValues (stmts.flatMap Stmt.locals)) fun f =>
      (cx.mapValues f).body (stmts.map (Stmt.mapValues f)) :=
  (framed_statements fun s _ => framed_statement s).braced

end Context

end Emitter
