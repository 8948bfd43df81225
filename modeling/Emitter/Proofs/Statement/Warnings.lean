import Emitter.Proofs.Statement.Locals

/-!
# The warnings of a statement

A warning is given for each local whose value is dropped because its type constructs one, in the
order in which the locals are printed, and for nothing else in a statement.
-/

namespace Emitter

open Layout Program

/-- The declaration has a value that its type leaves no place for. -/
def Program.VarDecl.isDropped (decl : VarDecl) : Bool := decl.ty.isStorage && decl.value.isSome

/-- One warning for each declaration whose value is dropped. -/
def dropped (t : Target) (decls : List VarDecl) : List Notice :=
  (decls.filter VarDecl.isDropped).map fun decl => .initializerDropped t decl.name

@[simp] theorem dropped_nil (t : Target) : dropped t [] = [] := rfl

@[simp] theorem dropped_append (t : Target) (first rest : List VarDecl) :
    dropped t (first ++ rest) = dropped t first ++ dropped t rest := by
  simp [dropped]

namespace Step

/-- The warning that the step gives. -/
def warning : Step → List Notice
  | .note notice => if notice.level = .warning then [notice] else []
  | _ => []

def warnings (steps : List Step) : List Notice := steps.flatMap warning

@[simp] theorem warnings_nil : warnings [] = [] := rfl

@[simp] theorem warnings_append (first rest : List Step) :
    warnings (first ++ rest) = warnings first ++ warnings rest := List.flatMap_append

@[simp] theorem warnings_cons (step : Step) (steps : List Step) :
    warnings (step :: steps) = step.warning ++ warnings steps := rfl

end Step

namespace Desk

def warnings (d : Desk) : List Notice := d.notices.filter (·.level = .warning)

theorem warnings_step {d d' : Desk} {step : Step} (h : d.step? step = some d') :
    d'.warnings = d.warnings ++ step.warning := by
  cases step with
  | note notice =>
      obtain rfl := Option.some.inj h
      by_cases hlevel : notice.level = .warning <;> simp [warnings, Step.warning, hlevel]
  | dedent | openFile path =>
      obtain ⟨w, -, rfl⟩ := Option.map_eq_some_iff.mp h
      simp [warnings, Step.warning]
  | closeFile =>
      -- A closed file is noticed, but not as a warning.
      obtain ⟨w, -, rfl⟩ := Option.map_eq_some_iff.mp h
      cases d.writer.currentFile <;> simp [warnings, Step.warning, Notice.level]
  | _ =>
      obtain rfl := Option.some.inj h
      simp [warnings, Step.warning]

/-- Playing steps gives their warnings, in order. -/
theorem warnings_play {d d' : Desk} {steps : List Step} (h : d.play? steps = some d') :
    d'.warnings = d.warnings ++ Step.warnings steps := by
  induction steps generalizing d with
  | nil =>
      obtain rfl : d = d' := by simpa [play?] using h
      simp
  | cons step steps ih =>
      obtain ⟨mid, hmid, hplay⟩ : ∃ mid, d.step? step = some mid ∧ mid.play? steps = some d' := by
        simpa [play?, List.foldlM_cons, Option.bind_eq_some_iff] using h
      rw [ih hplay, warnings_step hmid, Step.warnings_cons, List.append_assoc]

end Desk

namespace Emit

variable {α β : Type} {e e' : Emit Unit} {ws ws' : List Notice}

/-- The warnings of an emission that goes through. -/
def Warns (e : Emit α) (ws : List Notice) : Prop :=
  ∀ steps a, e = ⟨steps, .ok a⟩ → Step.warnings steps = ws

theorem Warns.bind {e : Emit α} {next : α → Emit β} (h : e.Warns ws)
    (h' : ∀ a, (next a).Warns ws') :
    (e >>= next).Warns (ws ++ ws') := by
  intro steps b hsteps
  obtain ⟨a, first, rest, hfirst, hrest, rfl⟩ := bind_eq_ok.mp hsteps
  rw [Step.warnings_append, h first a hfirst, h' a rest b hrest]

theorem warns_pure (a : α) : (pure a : Emit α).Warns [] := fun steps b h => by
  obtain ⟨-, rfl⟩ := pure_eq_ok.mp h
  rfl

theorem warns_ofSteps (steps : List Step) : (ofSteps steps).Warns (Step.warnings steps) :=
  fun given _ h => by rw [ofSteps_eq_ok.mp h]

theorem warns_dropped (t : Target) (name : String) :
    (note (.initializerDropped t name)).Warns [.initializerDropped t name] := warns_ofSteps _

theorem warns_debug {notice : Notice} (h : notice.level ≠ .warning) : (note notice).Warns [] := by
  have hnone : Step.warnings [.note notice] = [] := by simp [Step.warning, h]
  exact hnone ▸ warns_ofSteps _

theorem warns_put (code : Code) : (put code).Warns [] := warns_ofSteps _

theorem warns_line (code : Code) : (line code).Warns [] := warns_ofSteps _

theorem warns_newline : newline.Warns [] := warns_ofSteps _

theorem warns_lines (text : String) : (lines text).Warns [] := warns_ofSteps _

/-- What cannot be done gives no warning. -/
theorem warns_refused {fault : Fault} (ws : List Notice) :
    (liftM (.error fault : Result α) : Emit α).Warns ws := fun _ _ h => by
  cases (liftM_eq_ok.mp h).1

theorem Warns.lift {next : α → Emit β} (r : Result α) (h : ∀ a, r = .ok a → (next a).Warns ws) :
    (liftM r >>= next).Warns ws := fun steps b hsteps => by
  obtain ⟨a, hr, hnext⟩ := liftM_bind_eq_ok.mp hsteps
  exact h a hr steps b hnext

theorem Warns.seq (h : e.Warns ws) (h' : e'.Warns ws') : (do e; e').Warns (ws ++ ws') :=
  h.bind fun _ => h'

theorem Warns.indented (h : e.Warns ws) : e.indented.Warns ws := fun steps _ hsteps => by
  obtain ⟨inner, he, rfl⟩ := indented_eq_ok.mp hsteps
  simpa [Step.warning] using h inner () he

theorem Warns.deeper (h : e.Warns ws) : e.deeper.Warns ws := fun steps _ hsteps => by
  obtain ⟨inner, he, rfl⟩ := deeper_eq_ok.mp hsteps
  simpa [Step.warning] using h inner () he

theorem Warns.braced (h : e.Warns ws) : e.braced.Warns ws := fun steps _ hsteps => by
  obtain ⟨inner, he, rfl⟩ := braced_eq_ok.mp hsteps
  simpa [Step.warning] using h inner () he

theorem Warns.group (h : e.Warns ws) : e.group.Warns ws := fun steps _ hsteps => by
  obtain ⟨inner, he, rfl⟩ := group_eq_ok.mp hsteps
  simpa [Step.warning] using h inner () he

theorem warns_forM {f : α → Emit Unit} {g : α → List Notice} {items : List α}
    (h : ∀ item ∈ items, (f item).Warns (g item)) : (items.forM f).Warns (items.flatMap g) := by
  induction items with
  | nil => exact warns_pure ()
  | cons item rest ih =>
      obtain ⟨hitem, hrest⟩ := List.forall_mem_cons.mp h
      exact hitem.bind fun _ => ih hrest

theorem warns_forM_of_silent {f : α → Emit Unit} {items : List α}
    (h : ∀ item ∈ items, (f item).Warns []) : (items.forM f).Warns [] := by
  have hnone : items.flatMap (fun _ => ([] : List Notice)) = [] := by simp
  exact hnone ▸ warns_forM h

end Emit

theorem ActionScript.isStorage_iff_isSome {cx : Context} {ty : Ty} {implied : Option Code}
    (h : impliedInitializer cx ty = .ok implied) : ty.isStorage = implied.isSome := by
  unfold impliedInitializer at h
  split at h
  · obtain ⟨c, -, h⟩ := Result.bind_eq_ok.mp h
    obtain rfl := Except.ok.inj h
    rfl
  · obtain rfl := Except.ok.inj h
    rfl
  · next hobject harray =>
      obtain rfl := Except.ok.inj h
      cases ty with
      | classStorage id => exact absurd rfl (hobject id)
      | array element storage length =>
          cases storage with
          | false => rfl
          | true => exact absurd rfl (harray element length)
      | _ => rfl

theorem ActionScript.warns_initializer {cx : Context} (name : String) (ty : Ty)
    (value : Option Expr) :
    (initializer cx name ty value).Warns (dropped cx.target [⟨name, ty, value⟩]) := by
  refine Emit.Warns.lift _ fun implied himplied => ?_
  have hstorage := isStorage_iff_isSome himplied
  cases implied with
  | some code =>
      refine Emit.Warns.seq (Emit.warns_put _) ?_
      split
      case isTrue hvalue =>
        simpa [dropped, VarDecl.isDropped, hstorage, hvalue] using Emit.warns_dropped cx.target name
      case isFalse hvalue =>
        simpa [dropped, VarDecl.isDropped, hvalue] using Emit.warns_pure ()
  | none =>
      have hnone : dropped cx.target [⟨name, ty, value⟩] = [] := by
        simp [dropped, VarDecl.isDropped, hstorage]
      rw [hnone]
      cases value with
      | some e => exact Emit.Warns.lift _ fun code _ => Emit.warns_put _
      | none => exact Emit.warns_pure ()

/-- A declaration in C: one that is filled with zeros, with a warning if a value is dropped for
that, one without a value, or one with its value. -/
theorem CFamily.declareLocal_eq_ok {cx : Context} {d : Dialect} {decl : VarDecl} {steps : List Step}
    (h : declareLocal cx d decl = ⟨steps, .ok ()⟩) :
    ∃ type, declaration cx d decl.ty (cx.localWord decl.name) = .ok type ∧
      ((decl.ty.isStorage = true ∧ steps = .put type ::
          ((if decl.value.isSome then [Step.note (.initializerDropped cx.target decl.name)]
              else []) ++
            [Step.put zeros])) ∨
        (decl.ty.isStorage = false ∧ decl.value = none ∧ steps = [.put type]) ∨
          (decl.ty.isStorage = false ∧ ∃ e init, decl.value = some e ∧ cx.code e = .ok init ∧
            steps = [.put type, .put (Code.operator "=" ++ init)])) := by
  obtain ⟨type, htype, hrest⟩ := Emit.liftM_bind_eq_ok.mp h
  obtain ⟨rest, hinit, rfl⟩ := Emit.ofSteps_bind_eq_ok.mp hrest
  refine ⟨type, htype, ?_⟩
  split at hinit
  case isTrue hstorage =>
    refine .inl ⟨hstorage, ?_⟩
    dsimp only at hinit
    split at hinit
    case isTrue hsome =>
      obtain ⟨_, hput, rfl⟩ := Emit.ofSteps_bind_eq_ok.mp hinit
      obtain rfl := Emit.ofSteps_eq_ok.mp hput
      simp [hsome, zeros]
    case isFalse hnone =>
      obtain rfl := Emit.ofSteps_eq_ok.mp hinit
      simp [hnone, zeros]
  case isFalse hstorage =>
    have hstorage : decl.ty.isStorage = false := by simpa using hstorage
    split at hinit
    case h_1 e hsome =>
      obtain ⟨init, hcode, hput⟩ := Emit.liftM_bind_eq_ok.mp hinit
      obtain rfl := Emit.ofSteps_eq_ok.mp hput
      exact .inr (.inr ⟨hstorage, e, init, hsome, hcode, rfl⟩)
    case h_2 hnone =>
      obtain ⟨-, rfl⟩ := Emit.pure_eq_ok.mp hinit
      exact .inr (.inl ⟨hstorage, hnone, by simp⟩)

namespace Context

variable {cx : Context}

theorem warns_constructCalls (depth : Nat) (place : Code) (ty : Ty) :
    (CFamily.constructCalls cx depth place ty).Warns [] := by
  induction ty generalizing depth place with
  | classStorage id =>
      refine Emit.Warns.lift _ fun constructed _ => ?_
      cases constructed with
      | false => exact Emit.warns_pure ()
      | true => exact Emit.Warns.lift _ fun c _ => Emit.warns_line _
  | array element storage length ih =>
      cases storage with
      | false => exact Emit.warns_pure ()
      | true =>
          refine Emit.Warns.lift _ fun constructed _ => ?_
          cases constructed with
          | false => exact Emit.warns_pure ()
          | true =>
              cases length with
              | none => exact Emit.warns_refused _
              | some n => exact (Emit.warns_line _).seq (ih _ _).indented
  | _ => exact Emit.warns_pure ()

theorem warns_declareLocal (decl : VarDecl) :
    (cx.declareLocal decl).Warns (dropped cx.target [decl]) := by
  unfold declareLocal
  split
  · refine Emit.Warns.lift _ fun code _ => ?_
    exact (Emit.warns_put _).seq (ActionScript.warns_initializer decl.name decl.ty decl.value)
  · intro steps _ h
    obtain ⟨type, -, ⟨hstorage, rfl⟩ | ⟨hstorage, -, rfl⟩ | ⟨hstorage, e, init, -, -, rfl⟩⟩ :=
      CFamily.declareLocal_eq_ok h
    · cases hvalue : decl.value <;>
        simp [dropped, VarDecl.isDropped, hstorage, hvalue, Step.warning, Notice.level]
    · simp [dropped, VarDecl.isDropped, hstorage, Step.warning]
    · simp [dropped, VarDecl.isDropped, hstorage, Step.warning]

theorem warns_simple (s : Stmt) : (cx.simple s).Warns (dropped cx.target s.ownLocals) := by
  cases s with
  | declare decl => exact warns_declareLocal decl
  | eval e => exact Emit.Warns.lift _ fun code _ => Emit.warns_put _
  | assign target op value => exact Emit.Warns.lift _ fun code _ => Emit.warns_put _
  | _ => exact Emit.warns_refused _

/-- The local of a clause is the only one in it. -/
theorem warns_clause (s : Stmt) : (cx.simple s).Warns (dropped cx.target s.locals) := by
  intro steps _ h
  rw [Stmt.locals_eq, children_eq_nil_of_simple h, List.flatMap_nil, List.append_nil]
  exact warns_simple s steps () h

theorem warns_simpleLine (s : Stmt) : (cx.simpleLine s).Warns (dropped cx.target s.ownLocals) := by
  have hafter : (cx.afterSimple s).Warns [] := by
    unfold afterSimple
    split
    · exact warns_constructCalls _ _ _
    · exact Emit.warns_pure ()
  have hline := (@warns_simple cx s).seq ((Emit.warns_line [.symbol ";"]).seq hafter)
  rwa [List.append_nil, List.append_nil] at hline

theorem warns_head (keyword : String) (cond : Expr) : (cx.head keyword cond).Warns [] :=
  Emit.Warns.lift _ fun _ _ => Emit.warns_put _

theorem warns_nested {s : Stmt} {printed : Emit Unit} {ws : List Notice} (h : printed.Warns ws) :
    (nested s printed).Warns ws := by
  unfold nested
  split
  · simpa using (Emit.warns_put _).seq h
  · simpa using Emit.warns_newline.seq h.indented

theorem warns_alternative {s : Stmt} {printed : Emit Unit} {ws : List Notice}
    (h : printed.Warns ws) : (alternative s printed).Warns ws := by
  refine Emit.Warns.seq (Emit.warns_put _) ?_
  split
  · simpa using (Emit.warns_put _).seq h
  · exact warns_nested h

theorem warns_loopHead (start advance : Option Stmt) (cond : Option Expr) :
    (cx.loopHead start cond advance).Warns
      (dropped cx.target ((start.toList ++ advance.toList).flatMap Stmt.locals)) := by
  have hstart :
      (cx.startClause start).Warns (dropped cx.target (start.toList.flatMap Stmt.locals)) := by
    cases start with
    | none => exact Emit.warns_pure ()
    | some s =>
        simp only [startClause, loopStart, Option.toList_some, List.flatMap_singleton]
        split
        · exact warns_clause s
        · exact Emit.Warns.lift _ fun _ _ => warns_clause s
  have hcond : (cx.condClause cond).Warns [] := by
    cases cond with
    | none => exact Emit.warns_pure ()
    | some e => exact Emit.Warns.lift _ fun _ _ => Emit.warns_put _
  have hadvance : (cx.advanceClause advance).Warns
      (dropped cx.target (advance.toList.flatMap Stmt.locals)) := by
    cases advance with
    | none => exact Emit.warns_pure ()
    | some s => simpa [advanceClause] using (Emit.warns_put _).seq (warns_clause s)
  rw [loopHead_eq]
  simpa using (Emit.warns_put _).seq (hstart.seq ((Emit.warns_put _).seq (hcond.seq
    ((Emit.warns_put _).seq (hadvance.seq (Emit.warns_put _))))))

theorem warns_statements {stmts : List Stmt}
    (h : ∀ s ∈ stmts, (cx.statement s).Warns (dropped cx.target s.locals)) :
    (cx.statements stmts).Warns (dropped cx.target (stmts.flatMap Stmt.locals)) := by
  induction stmts with
  | nil => exact Emit.warns_pure ()
  | cons s rest ih =>
      obtain ⟨hs, hrest⟩ := List.forall_mem_cons.mp h
      simpa [statements] using hs.seq (ih hrest)

/-- A statement warns of each local in it whose value is dropped. -/
theorem warns_statement (s : Stmt) : (cx.statement s).Warns (dropped cx.target s.locals) := by
  induction s using Stmt.inductOn with
  | h s ih =>
  have hchildren : s.ownLocals = [] → s.locals = s.children.flatMap Stmt.locals := fun hown => by
    rw [Stmt.locals_eq, hown, List.nil_append]
  cases s with
  | block stmts =>
      rw [statement, hchildren rfl]
      exact (warns_statements ih).braced
  | eval e | assign target op value =>
      rw [statement]
      exact warns_simpleLine _
  | declare decl =>
      rw [statement]
      exact warns_simpleLine _
  | branch cond onTrue onFalse =>
      rw [hchildren rfl]
      have htrue := ih onTrue (by simp [Stmt.children])
      cases onFalse with
      | none =>
          rw [statement]
          simpa [Stmt.children] using (warns_head "if" cond).seq (warns_nested htrue)
      | some onFalse =>
          rw [statement]
          have hfalse := ih onFalse (by simp [Stmt.children])
          simpa [Stmt.children] using
            (warns_head "if" cond).seq ((warns_nested htrue).seq (warns_alternative hfalse))
  | whileLoop cond body =>
      rw [statement, hchildren rfl]
      simpa [Stmt.children] using
        (warns_head "while" cond).seq (warns_nested (ih body (by simp [Stmt.children])))
  | doLoop body cond =>
      rw [statement, hchildren rfl]
      have hbody := ih body (by simp [Stmt.children])
      simpa [Stmt.children] using (Emit.warns_put _).seq
        ((warns_nested hbody).seq ((warns_head "while" cond).seq (Emit.warns_line _)))
  | forLoop start cond advance body =>
      rw [statement, hchildren rfl]
      simpa [Stmt.children] using (warns_loopHead start advance cond).seq
        (warns_nested (ih body (by simp [Stmt.children])))
  | breakLoop | continueLoop =>
      rw [statement]
      exact Emit.warns_line _
  | returnValue value =>
      rw [statement]
      cases value with
      | none => exact Emit.warns_line _
      | some e => exact Emit.Warns.lift _ fun _ _ => Emit.warns_line _
  | «throwError» message =>
      rw [statement, thrown]
      split
      · exact Emit.Warns.lift _ fun _ _ => Emit.warns_line _
      · exact Emit.warns_refused _
  | native text =>
      rw [statement]
      exact Emit.warns_lines text

theorem warns_body (stmts : Block) :
    (cx.body stmts).Warns (dropped cx.target (stmts.flatMap Stmt.locals)) :=
  (warns_statements fun s _ => warns_statement s).braced

end Context

end Emitter
