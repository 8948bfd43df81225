import Emitter.Path

/-!
# Files

What a build asks of the place where files are kept, and why that place may refuse. Anything that
answers these questions will do: the machine's own files, or a tree of files as a value.
-/

namespace Emitter

/-- Why a file could not be read or written. `other` keeps the text of a cause that no build
depends on. -/
inductive FileError
  | missing
  | alreadyExists
  | notDirectory
  | isDirectory
  | nameTooLong
  | nulInName
  | notText
  | other (text : String)
  deriving DecidableEq, Repr

def FileError.message : FileError → String
  | missing => "No such file or directory (os error 2)"
  | alreadyExists => "File exists (os error 17)"
  | notDirectory => "Not a directory (os error 20)"
  | isDirectory => "Is a directory (os error 21)"
  | nameTooLong => "File name too long (os error 36)"
  | nulInName => "file name contained an unexpected NUL byte"
  | notText => "stream did not contain valid UTF-8"
  | other text => text

/-- The questions as operations of a monad. -/
class Files (m : Type → Type) where
  readText : Path → m (Except FileError String)
  isPresent : Path → m Bool
  isDirectory : Path → m Bool
  /-- Makes one directory whose parent exists. -/
  makeDirectory : Path → m (Except FileError Unit)
  /-- Makes a file or replaces its contents. -/
  writeText : Path → String → m (Except FileError Unit)

namespace Files

variable {m : Type → Type} [Monad m] [Files m]

/-- Makes a directory unless it is there already. -/
def ensureOne (p : Path) : m (Except FileError Unit) := do
  match ← makeDirectory p with
  | .ok () => return .ok ()
  | .error e => return if ← isDirectory p then .ok () else .error e

/-- Makes a directory, given with its ancestors. They are made first where the directory cannot be
made without them. The empty path needs nothing. -/
def ensureDirectory : List Path → m (Except FileError Unit)
  | [] => return .ok ()
  | p :: ancestors => do
    if p.text = "" then return .ok ()
    match ← ensureOne p with
    | .error .missing =>
      match ← ensureDirectory ancestors with
      | .ok () => ensureOne p
      | .error e => return .error e
    | outcome => return outcome

/-- Writes a file, and makes its parent directory first where it has a named one. -/
def save (p : Path) (contents : String) : m (Except FileError Unit) := do
  match p.parent? with
  | none => writeText p contents
  | some directory =>
    match ← ensureDirectory directory.ancestors with
    | .ok () => writeText p contents
    | .error e => return .error e

end Files

end Emitter
