import Emitter.Layout.Writer
import Emitter.Target.Failure
import Emitter.Target.Notice

/-!
# Emissions

An emission is what printing a part of a program amounts to: the steps to take, in order, and
either a value or the fault that stopped it. The steps before a fault are kept, since the notices
among them were given. Nothing that is printed depends on what was printed before, so emissions
are plain values that are carried out on a writer afterwards.
-/

namespace Emitter

open Layout

inductive Step
  | put (code : Code)
  | newline
  | lines (text : String)
  | indent
  | dedent
  | beginSection
  | pasteSection
  | dropSection
  | openFile (path : Path)
  | closeFile
  | note (notice : Notice)
  deriving DecidableEq

/-- Steps to take, and the value or fault at their end. -/
structure Emit (α : Type) where
  steps : List Step
  outcome : Result α

namespace Emit

variable {α β : Type}

def ofResult (outcome : Result α) : Emit α := ⟨[], outcome⟩

def bind (e : Emit α) (next : α → Emit β) : Emit β :=
  match e.outcome with
  | .error fault => ⟨e.steps, .error fault⟩
  | .ok a => ⟨e.steps ++ (next a).steps, (next a).outcome⟩

instance : Monad Emit where
  pure a := ⟨[], .ok a⟩
  bind := bind

instance : MonadLift Result Emit where
  monadLift := ofResult

def ofSteps (steps : List Step) : Emit Unit := ⟨steps, .ok ()⟩

def put (code : Code) : Emit Unit := ofSteps [.put code]

def newline : Emit Unit := ofSteps [.newline]

def line (code : Code) : Emit Unit := ofSteps [.put code, .newline]

def lines (text : String) : Emit Unit := ofSteps [.lines text]

def note (notice : Notice) : Emit Unit := ofSteps [.note notice]

/-- The emission with steps behind it, which are taken also where the emission stops. -/
def closedBy (e : Emit α) (steps : List Step) : Emit α := { e with steps := e.steps ++ steps }

/-- The emission one level deeper. A fault leaves the level as it is. -/
def deeper (e : Emit Unit) : Emit Unit := do
  ofSteps [.indent]
  e
  ofSteps [.dedent]

/-- The emission one level deeper. The level is left also where the emission stops. -/
def indented (e : Emit Unit) : Emit Unit := do
  ofSteps [.indent]
  e.closedBy [.dedent]

/-- The emission between braces, one level deeper, which are closed also where it stops. -/
def braced (e : Emit Unit) : Emit Unit := do
  line [.symbol "\x7b"]
  e.indented.closedBy [.put [.symbol "\x7d"], .newline]

/-- The emission as a section of its own, put after an empty line unless it is empty. What a fault
leaves of the section is dropped. -/
def group (e : Emit Unit) : Emit Unit := do
  ofSteps [.beginSection]
  e.closedBy [if e.outcome.isOk then .pasteSection else .dropSection]

/-- The suppliers of the names in the printed code, in order. -/
def suppliers (e : Emit α) : List Supplier :=
  e.steps.flatMap fun
    | .put code => code.filterMap Lexeme.supplier?
    | _ => []

end Emit

/-- A writer at work and the notices given so far. -/
structure Desk where
  writer : Writer
  notices : List Notice

namespace Desk

/-- Takes a step. Only steps that unbalance the layout fail. -/
def step? (d : Desk) : Step → Option Desk
  | .put code => some { d with writer := code.foldl (fun w l => w.write l.text) d.writer }
  | .newline => some { d with writer := d.writer.newline }
  | .lines text => some { d with writer := d.writer.writeLines text }
  | .indent => some { d with writer := d.writer.indentMore }
  | .dedent => d.writer.dedent?.map ({ d with writer := · })
  | .beginSection => some { d with writer := d.writer.beginSection }
  | .pasteSection => some { d with writer := d.writer.pasteSection }
  | .dropSection => some { d with writer := d.writer.endSection.2 }
  | .openFile path => (d.writer.createFile? path).map ({ d with writer := · })
  | .closeFile =>
    d.writer.closeFile?.map fun w =>
      ⟨w, match d.writer.currentFile with
        | some path => d.notices ++ [.closed path d.writer.out.utf8ByteSize]
        | none => d.notices⟩
  | .note notice => some { d with notices := d.notices ++ [notice] }

/-- Takes steps in order. -/
def play? (d : Desk) (steps : List Step) : Option Desk := steps.foldlM step? d

end Desk

/-- A stretch of a run on a desk. -/
abbrev Run := ExceptT Fault (StateM Desk)

namespace Run

/-- Carries an emission out: its steps first, then its outcome. -/
def perform {α : Type} (e : Emit α) : Run α := do
  match (← get).play? e.steps with
  | none => throw .unbalanced
  | some desk =>
    set desk
    match e.outcome with
    | .ok a => pure a
    | .error fault => throw fault

/-- Every step is taken before the outcome is looked at. -/
theorem run_perform {α : Type} (e : Emit α) (d : Desk) : (perform e).run.run d =
    ((d.play? e.steps).elim (.error .unbalanced, d) fun d' => (e.outcome, d')) := by
  have hget : (perform e).run.run d = (match d.play? e.steps with
      | none => (throw Fault.unbalanced : Run α)
      | some desk => do
        set desk
        match e.outcome with
        | .ok a => pure a
        | .error fault => throw fault).run.run d := rfl
  rw [hget]
  cases d.play? e.steps with
  | none => rfl
  | some d' => cases e.outcome <;> rfl

/-- The text that an emission prints into a section of its own. -/
def sectionText (e : Emit Unit) : Run String := do
  modify fun d => { d with writer := d.writer.beginSection }
  perform e
  let (text, w) := (← get).writer.endSection
  modify fun d => { d with writer := w }
  return text

end Run

end Emitter
