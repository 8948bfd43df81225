import Emitter.CommandLine

/-!
# The program

The machine's own files answer what a build asks, and the outcome is printed.
-/

namespace Emitter

/-- The code of an error, if it has one. -/
def errorCode? : IO.Error → Option UInt32
  | .noFileOrDirectory _ code _ => some code
  | .alreadyExists _ code _ => some code
  | .inappropriateType _ code _ => some code
  | .invalidArgument _ code _ => some code
  | .resourceExhausted _ code _ => some code
  | .otherError code _ => some code
  | _ => none

/-- The number the operating system gives an error. Some operations report it negated. -/
def errorNumber? (e : IO.Error) : Option UInt32 :=
  (errorCode? e).map fun code => if code < 0x80000000 then code else 0 - code

def FileError.ofError (e : IO.Error) : FileError :=
  match errorNumber? e with
  | some 2 => missing
  | some 17 => alreadyExists
  | some 20 => notDirectory
  | some 21 => isDirectory
  | some 36 => nameTooLong
  | _ => other (toString e)

/-- Carries an action out unless its path holds a NUL. -/
def attemptAt {α : Type} (p : Path) (action : IO α) : IO (Except FileError α) := do
  if p.text.toList.contains '\x00' then return .error .nulInName
  return (← action.toBaseIO).mapError .ofError

instance : Files IO where
  readText p := do
    match ← attemptAt p (IO.FS.readBinFile p.text) with
    | .error e => return .error e
    | .ok contents =>
      match String.fromUTF8? contents with
      | some text => return .ok text
      | none => return .error .notText
  isPresent p := return (← attemptAt p (IO.FS.realPath p.text)).isOk
  isDirectory p := return p.text ≠ "" && (← attemptAt p (IO.FS.realPath (p.text ++ "/."))).isOk
  makeDirectory p := attemptAt p (IO.FS.createDir p.text)
  writeText p contents := attemptAt p (IO.FS.writeFile p.text contents)

end Emitter

def main (arguments : List String) : IO UInt32 := do
  let outcome : Emitter.CommandLine.Outcome ← Emitter.CommandLine.run arguments
  (← IO.getStdout).putStr outcome.printed
  (← IO.getStderr).putStr outcome.complaints
  return outcome.status
