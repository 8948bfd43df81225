import Emitter.Files
import Emitter.Toml.Parser

/-!
# Project settings

A project keeps the target, the output path and the package of its generated code in a settings
file. The file that counts is the nearest one, in a directory or in one of the directories above.
A relative output path starts at the settings file.
-/

namespace Emitter

/-- What a settings file says, and the directory it stands in. -/
structure Settings where
  target : String
  output : Path
  package : Option String
  root : Path
  deriving DecidableEq

inductive SettingsError
  | unreadable (path : Path) (cause : FileError)
  | invalid (path : Path)
  | missingKey (path : Path) (key : String)
  deriving DecidableEq

def SettingsError.message : SettingsError → String
  | unreadable path cause => "cannot read '" ++ path.text ++ "': " ++ cause.message
  | invalid path => "invalid '" ++ path.text ++ "'"
  | missingKey path key => "missing '" ++ key ++ "' in '" ++ path.text ++ "'"

namespace Settings

def fileName : String := "polyemit.toml"

/-- The output settings of a file, as far as they are given. -/
structure Given where
  target : Option String
  path : Option String
  package : Option String

/-- The text under a key. Another kind of value is refused. -/
def textUnder? (entries : List (String × Toml)) (key : String) : Option (Option String) :=
  match entries.lookup key with
  | none => some none
  | some (.string text) => some (some text)
  | some _ => none

/-- The output settings in a table of named texts, or in a list of texts in the order target,
path, package. -/
def Given.ofToml? : Toml → Option Given
  | .table entries => do
    guard (entries.all fun entry => entry.1 ∈ ["target", "path", "namespace"])
    return ⟨← textUnder? entries "target", ← textUnder? entries "path",
      ← textUnder? entries "namespace"⟩
  | .array (.string target :: .string path :: .string package :: _) =>
    some ⟨some target, some path, some package⟩
  | _ => none

/-- The output settings of a document, absent ones included. -/
def given? (document : List (String × Toml)) : Option (Option Given) := do
  guard (document.all (·.1 = "output"))
  match document.lookup "output" with
  | none => return none
  | some value => return some (← Given.ofToml? value)

/-- The settings in the text of a settings file. -/
def ofText (path : Path) (text : String) : Except SettingsError Settings :=
  match (Toml.parse? text).bind given? with
  | none => .error (.invalid path)
  | some none => .error (.missingKey path "output")
  | some (some ⟨none, _, _⟩) => .error (.missingKey path "output.target")
  | some (some ⟨some _, none, _⟩) => .error (.missingKey path "output.path")
  | some (some ⟨some target, some output, package⟩) =>
    let root := path.parent?.getD ⟨"."⟩
    .ok ⟨target, root.join ⟨output⟩, package, root⟩

variable {m : Type → Type} [Monad m] [Files m]

def load (path : Path) : m (Except SettingsError Settings) := do
  match ← Files.readText path with
  | .error cause => return .error (.unreadable path cause)
  | .ok text => return ofText path text

/-- The first directory with a settings file gives the path of that file. -/
def findIn : List Path → m (Option Path)
  | [] => return none
  | directory :: rest => do
    let candidate := directory.join ⟨fileName⟩
    if ← Files.isPresent candidate then return some candidate else findIn rest

/-- The nearest settings file of a directory. -/
def find (start : Path) : m (Option Path) := findIn start.ancestors

end Settings

end Emitter
