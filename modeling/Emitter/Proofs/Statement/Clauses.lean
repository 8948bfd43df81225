import Emitter.Proofs.Statement.Children
import Emitter.Target.Statement

/-!
# The clauses of a loop's head

Emissions one after the other can be regrouped, so a loop's head is three clauses, each of which
may be empty, between fixed symbols.
-/

namespace Emitter

open Layout Program

theorem Emit.bind_assoc {α β γ : Type} (e : Emit α) (first : α → Emit β) (second : β → Emit γ) :
    (e.bind first).bind second = e.bind fun a => (first a).bind second := by
  obtain ⟨steps, outcome⟩ := e
  cases outcome with
  | error fault => rfl
  | ok a =>
      cases h : (first a).outcome <;> simp [Emit.bind, h]

theorem Emit.bind_pure {α : Type} (e : Emit α) : (e.bind fun a => ⟨[], .ok a⟩) = e := by
  obtain ⟨steps, outcome⟩ := e
  cases outcome <;> simp [Emit.bind]

instance : LawfulMonad Emit := .mk' _ Emit.bind_pure (fun _ _ => rfl) Emit.bind_assoc

namespace Emit

variable {α β : Type}

theorem outcome_bind (e : Emit α) (next : α → Emit β) :
    (e >>= next).outcome = e.outcome >>= fun a => (next a).outcome := by
  change (Emit.bind e next).outcome = _
  unfold Emit.bind
  cases e.outcome <;> rfl

theorem outcome_forM_ok {f : α → Emit Unit} (h : ∀ item, (f item).outcome = .ok ())
    (items : List α) : (items.forM f).outcome = .ok () := by
  induction items with
  | nil => rfl
  | cons item rest ih =>
      change (f item >>= fun _ => rest.forM f).outcome = _
      rw [outcome_bind, h item]
      exact ih

/-- An emission that goes through is the steps of its parts one after the other. -/
theorem bind_eq_ok {e : Emit α} {next : α → Emit β} {steps : List Step} {b : β} :
    e >>= next = ⟨steps, .ok b⟩ ↔ ∃ a first rest,
      e = ⟨first, .ok a⟩ ∧ next a = ⟨rest, .ok b⟩ ∧ steps = first ++ rest := by
  change Emit.bind e next = _ ↔ _
  obtain ⟨first, outcome⟩ := e
  cases outcome with
  | error fault => simp [Emit.bind]
  | ok a =>
      rcases hnext : next a with ⟨rest, outcome⟩
      constructor
      · intro h
        obtain ⟨rfl, rfl⟩ : first ++ rest = steps ∧ outcome = .ok b := by
          simpa [Emit.bind, hnext] using h
        exact ⟨a, first, rest, rfl, hnext, rfl⟩
      · rintro ⟨a', first', rest', hfirst, hrest, rfl⟩
        obtain ⟨rfl, ha⟩ := Emit.mk.inj hfirst
        obtain rfl := Except.ok.inj ha
        obtain ⟨rfl, rfl⟩ := Emit.mk.inj (hnext.symm.trans hrest)
        simp [Emit.bind, hnext]

theorem liftM_eq_ok {r : Result α} {steps : List Step} {a : α} :
    (liftM r : Emit α) = ⟨steps, .ok a⟩ ↔ r = .ok a ∧ steps = [] := by
  change Emit.mk [] r = _ ↔ _
  rw [Emit.mk.injEq]
  exact ⟨fun ⟨hsteps, hr⟩ => ⟨hr, hsteps.symm⟩, fun ⟨hr, hsteps⟩ => ⟨hsteps.symm, hr⟩⟩

theorem ofSteps_eq_ok {given steps : List Step} :
    ofSteps given = ⟨steps, .ok ()⟩ ↔ steps = given := by
  simp [ofSteps, eq_comm]

theorem pure_eq_ok {a b : α} {steps : List Step} :
    (pure a : Emit α) = ⟨steps, .ok b⟩ ↔ a = b ∧ steps = [] := by
  change Emit.mk [] (.ok a) = _ ↔ _
  simp [eq_comm, and_comm]

theorem liftM_bind_eq_ok {r : Result α} {next : α → Emit β} {steps : List Step} {b : β} :
    liftM r >>= next = ⟨steps, .ok b⟩ ↔ ∃ a, r = .ok a ∧ next a = ⟨steps, .ok b⟩ := by
  simp only [bind_eq_ok, liftM_eq_ok]
  constructor
  · rintro ⟨a, first, rest, ⟨hr, rfl⟩, hnext, rfl⟩
    exact ⟨a, hr, hnext⟩
  · rintro ⟨a, hr, hnext⟩
    exact ⟨a, [], steps, ⟨hr, rfl⟩, hnext, rfl⟩

theorem ofSteps_bind_eq_ok {given steps : List Step} {next : Emit β} {b : β} :
    (do ofSteps given; next) = ⟨steps, .ok b⟩ ↔
      ∃ rest, next = ⟨rest, .ok b⟩ ∧ steps = given ++ rest := by
  rw [bind_eq_ok]
  constructor
  · rintro ⟨⟨⟩, first, rest, hfirst, hnext, rfl⟩
    obtain rfl := ofSteps_eq_ok.mp hfirst
    exact ⟨rest, hnext, rfl⟩
  · rintro ⟨rest, hnext, rfl⟩
    exact ⟨(), given, rest, rfl, hnext, rfl⟩

theorem closedBy_eq_ok {e : Emit α} {last steps : List Step} {a : α} :
    e.closedBy last = ⟨steps, .ok a⟩ ↔ ∃ first, e = ⟨first, .ok a⟩ ∧ steps = first ++ last := by
  obtain ⟨first, outcome⟩ := e
  simp only [closedBy, Emit.mk.injEq]
  constructor
  · rintro ⟨rfl, rfl⟩
    exact ⟨first, ⟨rfl, rfl⟩, rfl⟩
  · rintro ⟨_, ⟨rfl, rfl⟩, rfl⟩
    exact ⟨rfl, rfl⟩

variable {e : Emit Unit} {steps : List Step}

theorem indented_eq_ok : e.indented = ⟨steps, .ok ()⟩ ↔
    ∃ inner, e = ⟨inner, .ok ()⟩ ∧ steps = .indent :: (inner ++ [Step.dedent]) := by
  simp only [indented, ofSteps_bind_eq_ok, closedBy_eq_ok]
  constructor
  · rintro ⟨_, ⟨inner, he, rfl⟩, rfl⟩
    exact ⟨inner, he, rfl⟩
  · rintro ⟨inner, he, rfl⟩
    exact ⟨_, ⟨inner, he, rfl⟩, rfl⟩

theorem deeper_eq_ok : e.deeper = ⟨steps, .ok ()⟩ ↔
    ∃ inner, e = ⟨inner, .ok ()⟩ ∧ steps = .indent :: (inner ++ [Step.dedent]) := by
  unfold deeper
  rw [ofSteps_bind_eq_ok]
  simp only [bind_eq_ok, ofSteps_eq_ok]
  constructor
  · rintro ⟨_, ⟨⟨⟩, inner, _, he, rfl, rfl⟩, rfl⟩
    exact ⟨inner, he, rfl⟩
  · rintro ⟨inner, he, rfl⟩
    exact ⟨_, ⟨(), inner, _, he, rfl, rfl⟩, rfl⟩

theorem braced_eq_ok : e.braced = ⟨steps, .ok ()⟩ ↔
    ∃ inner, e = ⟨inner, .ok ()⟩ ∧ steps = .put [.symbol "\x7b"] :: .newline :: .indent ::
      (inner ++ [Step.dedent, Step.put [.symbol "\x7d"], Step.newline]) := by
  simp only [braced, line, ofSteps_bind_eq_ok, closedBy_eq_ok, indented_eq_ok]
  constructor
  · rintro ⟨_, ⟨_, ⟨inner, he, rfl⟩, rfl⟩, rfl⟩
    exact ⟨inner, he, by simp⟩
  · rintro ⟨inner, he, rfl⟩
    exact ⟨_, ⟨_, ⟨inner, he, rfl⟩, rfl⟩, by simp⟩

theorem group_eq_ok : e.group = ⟨steps, .ok ()⟩ ↔
    ∃ inner, e = ⟨inner, .ok ()⟩ ∧ steps = .beginSection :: (inner ++ [Step.pasteSection]) := by
  simp only [group, ofSteps_bind_eq_ok, closedBy_eq_ok]
  constructor
  · rintro ⟨_, ⟨inner, rfl, rfl⟩, rfl⟩
    exact ⟨inner, rfl, rfl⟩
  · rintro ⟨inner, rfl, rfl⟩
    exact ⟨_, ⟨inner, rfl, rfl⟩, rfl⟩

end Emit

namespace Run

variable {α β : Type} {d d' : Desk}

/-- A stretch of a run goes through if its parts do. -/
theorem bind_eq_ok {r : Run α} {next : α → Run β} {b : β} :
    (r >>= next).run.run d = (.ok b, d') ↔
      ∃ a d₁, r.run.run d = (.ok a, d₁) ∧ (next a).run.run d₁ = (.ok b, d') := by
  rcases hr : r.run.run d with ⟨fault | a, d₁⟩
  · have hrun : (r >>= next).run.run d = (.error fault, d₁) := by
      simp only [ExceptT.run_bind, StateT.run_bind, hr]
      rfl
    rw [hrun]
    constructor
    · intro h
      cases h
    · rintro ⟨a, d₂, h, -⟩
      cases h
  · have hrun : (r >>= next).run.run d = (next a).run.run d₁ := by
      simp only [ExceptT.run_bind, StateT.run_bind, hr]
      rfl
    rw [hrun]
    constructor
    · intro h
      exact ⟨a, d₁, rfl, h⟩
    · rintro ⟨a', d₂, h, hnext⟩
      cases h
      exact hnext

/-- An emission is carried out to its end if it has been played to its end. -/
theorem perform_eq_ok {e : Emit α} {a : α} :
    (perform e).run.run d = (.ok a, d') ↔ d.play? e.steps = some d' ∧ e.outcome = .ok a := by
  rw [run_perform]
  cases d.play? e.steps with
  | none =>
      constructor
      · intro h
        cases h
      · rintro ⟨h, -⟩
        cases h
  | some d₁ =>
      constructor
      · intro h
        obtain ⟨hok, rfl⟩ := Prod.mk.inj h
        exact ⟨rfl, hok⟩
      · rintro ⟨h, hok⟩
        obtain rfl := Option.some.inj h
        exact Prod.ext hok rfl

end Run

namespace Context

def startClause (cx : Context) : Option Stmt → Emit Unit
  | some s => cx.loopStart s
  | none => pure ()

def condClause (cx : Context) : Option Expr → Emit Unit
  | some e => do Emit.put (.gap :: (← cx.inline e))
  | none => pure ()

def advanceClause (cx : Context) : Option Stmt → Emit Unit
  | some s => do
    Emit.put [.gap]
    cx.simple s
  | none => pure ()

variable {cx : Context}

theorem loopHead_eq (start : Option Stmt) (cond : Option Expr) (advance : Option Stmt) :
    cx.loopHead start cond advance = (do
      Emit.put [.word "for", .gap, .symbol "("]
      cx.startClause start
      Emit.put [.symbol ";"]
      cx.condClause cond
      Emit.put [.symbol ";"]
      cx.advanceClause advance
      Emit.put [.symbol ")"]) := by
  cases start <;> cases cond <;> cases advance <;>
    simp [loopHead, startClause, condClause, advanceClause]

end Context

end Emitter
