import Emitter.Layout.Lexeme
import Emitter.Path
import Emitter.Target.Basic

/-!
# What a run reports

The notices of a run, in the order they arise: its progress, and a warning for each explicit
initializer that is dropped because the type constructs its value by itself.
-/

namespace Emitter

open Layout

inductive Level
  | debug
  | warning
  deriving DecidableEq, Repr

inductive Notice
  | generating (target : Target) (output : Path)
  | assembling (target : Target) (path : Path)
  | closed (path : Path) (bytes : Nat)
  | enumeration (target : Target) (name : String)
  | emptyEnumeration (target : Target) (name : String)
  | classFile (name : String)
  | layout (target : Target) (name : String)
  | method (target : Target) (owner name : String)
  | helperClass (used : List Helper)
  | initializerDropped (target : Target) (name : String)
  deriving DecidableEq

namespace Notice

def level : Notice → Level
  | initializerDropped .. => .warning
  | _ => .debug

/-- The helper flags as one text. -/
def helperFlags (used : List Helper) : String :=
  let flag (helper : Helper) := if helper ∈ used then "true" else "false"
  "HelperUsage \x7b substring: " ++ flag .substring ++ ", copy_array: " ++ flag .copyArray ++
    ", bytes_to_string: " ++ flag .bytesToString ++ ", clear_array: " ++ flag .clearArray ++
    ", divide_element: " ++ flag .divideElement ++ " \x7d"

def message : Notice → String
  | generating target output => "generating " ++ target.name ++ " into " ++ output.text
  | assembling target path => target.name ++ ": assembling " ++ path.text
  | closed path bytes => "closed " ++ path.text ++ " (" ++ toString bytes ++ " bytes)"
  | enumeration target name => target.name ++ ": enum " ++ name
  | emptyEnumeration target name => target.name ++ ": skipping empty enum " ++ name
  | classFile name => "as: class " ++ name
  | layout target name => target.name ++ ": struct " ++ name
  | method target owner name => target.name ++ ": " ++ owner ++ "_" ++ name
  | helperClass used => "as: helper class " ++ helperFlags used
  | initializerDropped target name =>
    target.name ++ ": `" ++ name ++ "` is constructed by its type; explicit initializer dropped"

end Notice

end Emitter
