import Emitter.ActionScript.File
import Emitter.CFamily.File

/-!
# Generating target code

A backend prints programs for one target, one run after the other. Every run starts on a writer
that has forgotten the runs before it. A run ends with its files or with the fault that stopped it,
and reports what it noticed either way.
-/

namespace Emitter

open Layout

/-- Where generated code goes: a directory or a file, depending on the target, and a package. -/
structure Options where
  output : Path
  package : Option String

/-- What a run leaves: files or a fault, and its notices. -/
structure Report where
  files : Result (List OutputFile)
  notices : List Notice

/-- The warnings of a run, in order. -/
def Report.warnings (r : Report) : List String :=
  (r.notices.filter (·.level = .warning)).map Notice.message

/-- A target with the writer its runs use. -/
structure Backend where
  target : Target
  writer : Writer

namespace Backend

def ofTarget (t : Target) : Backend := ⟨t, .new⟩

def ofName? (name : String) : Except Refusal Backend :=
  match Target.ofName? name with
  | some t => .ok (ofTarget t)
  | none => .error (.unknownTarget name)

/-- Printing a whole program, as a stretch of a run. -/
def emission (t : Target) (p : Program) (o : Options) : Run Unit :=
  let cx : Context := ⟨p, t, none⟩
  match t with
  | .actionScript => Run.perform (ActionScript.files cx ⟨o.output, o.package⟩)
  | .cFamily d => CFamily.assemble cx d (CFamily.outputPath t o.output)

/-- Prints a program. The writer forgets what it held before, and after a fault also what this run
wrote. -/
def run (b : Backend) (p : Program) (o : Options) : Report × Backend :=
  let (outcome, desk) := (emission b.target p o).run.run ⟨.new, []⟩
  match outcome with
  | .ok () =>
    let (files, writer) := desk.writer.takeFiles
    (⟨.ok files, desk.notices⟩, { b with writer })
  | .error fault => (⟨.error fault, desk.notices⟩, { b with writer := .new })

end Backend

/-- Prints a program for the target of the given name. -/
def generate (target : String) (p : Program) (o : Options) : Report :=
  match Backend.ofName? target with
  | .error refusal => ⟨.error (.refused refusal), []⟩
  | .ok b =>
    let report := (b.run p o).1
    { report with notices := .generating b.target o.output :: report.notices }

end Emitter
