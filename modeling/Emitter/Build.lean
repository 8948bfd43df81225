import Emitter.Files
import Emitter.Generate
import Emitter.Program.Decode

/-!
# Building

A build reads a program, prints it and writes the files. The files are written in order, and the
first one that cannot be written ends the build.
-/

namespace Emitter

open Program

inductive LoadError
  | unreadable (path : Path) (cause : FileError)
  | malformed
  | dangling (id : SymbolId)
  deriving DecidableEq

def LoadError.message : LoadError → String
  | unreadable path cause => "cannot read '" ++ path.text ++ "': " ++ cause.message
  | malformed => "malformed program"
  | dangling id => "malformed program: " ++ id.description

structure WriteError where
  path : Path
  cause : FileError
  deriving DecidableEq

def WriteError.message (e : WriteError) : String :=
  "cannot write '" ++ e.path.text ++ "': " ++ e.cause.message

/-- Where a build failed. -/
inductive BuildError
  | load (error : LoadError)
  | generate (fault : Fault)
  | write (error : WriteError)

def BuildError.message : BuildError → String
  | load e => e.message
  | generate fault => fault.message
  | write e => e.message

/-- The error of a text that is no program. -/
def LoadError.ofFormError : FormError → LoadError
  | .malformed => malformed
  | .dangling id => dangling id

variable {m : Type → Type} [Monad m] [Files m]

/-- The program in a file. -/
def loadProgram (path : Path) : m (Except LoadError Program) := do
  match ← Files.readText path with
  | .error cause => return .error (.unreadable path cause)
  | .ok text => return (Program.ofText text).mapError .ofFormError

def writeFiles : List OutputFile → m (Except WriteError Unit)
  | [] => return .ok ()
  | file :: rest => do
    match ← Files.save file.path file.contents with
    | .error cause => return .error ⟨file.path, cause⟩
    | .ok () => writeFiles rest

/-- What a build leaves: the files it wrote or the error, and the notices of printing. -/
structure BuildReport where
  files : Except BuildError (List OutputFile)
  notices : List Notice

/-- Reads, prints and writes a program. -/
def build (input : Path) (target : String) (o : Options) : m BuildReport := do
  match ← loadProgram input with
  | .error e => return ⟨.error (.load e), []⟩
  | .ok p =>
    let report := generate target p o
    match report.files with
    | .error fault => return ⟨.error (.generate fault), report.notices⟩
    | .ok files =>
      match ← writeFiles files with
      | .error e => return ⟨.error (.write e), report.notices⟩
      | .ok () => return ⟨.ok files, report.notices⟩

/-- Where the output of an input goes if nothing says so: a directory beside it for ActionScript,
else a file beside it with the target's name as its extension, if that is one. -/
def defaultOutput? (input : Path) (target : String) : Option Path :=
  if target = Target.actionScript.name then some (input.withExtension "")
  else if Path.isExtension target then some (input.withExtension target)
  else none

end Emitter
