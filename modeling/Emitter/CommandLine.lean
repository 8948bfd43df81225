import Emitter.Build
import Emitter.Settings

/-!
# The command line

The arguments are read from left to right, and the first thing that is wrong with them decides,
as does a request for help or the version. What stands after `--` are inputs. An option's value
may follow it as the next argument unless that looks like an option, or be joined to it: after an
equals sign, or directly after the letter of a short option.

For a build, options go before settings. Output path and package of the settings only count for
the target that they name.
-/

namespace Emitter

/-- The options of a build that take a value. -/
inductive BuildOption
  | target
  | output
  | package
  | settings
  deriving DecidableEq, Repr

namespace BuildOption

def all : List BuildOption := [target, output, package, settings]

def long : BuildOption → String
  | target => "target"
  | output => "output"
  | package => "namespace"
  | settings => "config"

def short? : BuildOption → Option Char
  | target => some 't'
  | output => some 'o'
  | package | settings => none

/-- Values of the option are paths, which are never empty. -/
def isPath : BuildOption → Bool
  | output | settings => true
  | target | package => false

end BuildOption

/-- A build as the command line asks for it. -/
structure BuildRequest where
  input : Path
  target : Option String
  output : Option Path
  package : Option String
  settings : Option Path
  deriving DecidableEq

inductive Request
  | build (request : BuildRequest)
  | targets
  | help
  | version
  deriving DecidableEq

/-- What is wrong with arguments. -/
inductive Misuse
  | noCommand
  | unknownCommand (name : String)
  | unexpected (argument : String)
  | noValue (option : BuildOption)
  | repeated (option : BuildOption)
  | emptyPath
  | noInput
  deriving DecidableEq

def Misuse.message : Misuse → String
  | noCommand => "no command given"
  | unknownCommand name => "unknown command '" ++ name ++ "'"
  | unexpected argument => "unexpected argument '" ++ argument ++ "'"
  | noValue option => "no value given for '--" ++ option.long ++ "'"
  | repeated option => "'--" ++ option.long ++ "' given more than once"
  | emptyPath => "empty path"
  | noInput => "no input given"

namespace CommandLine

/-- An argument by its form. -/
inductive Argument
  | separator
  | long (name : String) (value : Option String)
  | short (letter : Char) (rest : List Char)
  | plain (text : String)
  deriving DecidableEq

def Argument.ofText (text : String) : Argument :=
  match text.toList with
  | ['-', '-'] => separator
  | '-' :: '-' :: cs =>
    let value := (cs.dropWhile (· ≠ '=')).tail?
    long (String.ofList (cs.takeWhile (· ≠ '='))) (value.map String.ofList)
  | '-' :: c :: cs => short c cs
  | _ => plain text

/-- The value joined to a short option, an equals sign left out. -/
def joinedValue : List Char → Option String
  | [] => none
  | '=' :: cs => some (String.ofList cs)
  | cs => some (String.ofList cs)

/-- What has been read of a build. -/
structure Draft where
  input : Option Path
  values : List (BuildOption × String)

def Draft.takeInput (d : Draft) (text : String) : Except Misuse Draft :=
  if d.input.isSome then .error (.unexpected text)
  else if text = "" then .error .emptyPath
  else .ok { d with input := some ⟨text⟩ }

def Draft.takeValue (d : Draft) (option : BuildOption) (text : String) : Except Misuse Draft :=
  if (d.values.lookup option).isSome then .error (.repeated option)
  else if option.isPath ∧ text = "" then .error .emptyPath
  else .ok { d with values := (option, text) :: d.values }

def Draft.finish (d : Draft) : Except Misuse Request :=
  match d.input with
  | none => .error .noInput
  | some input =>
    let value (option : BuildOption) := d.values.lookup option
    .ok (.build ⟨input, value .target, (value .output).map .mk, value .package,
      (value .settings).map .mk⟩)

/-- The option an argument names, and its value if that is joined to it. -/
def namedOption? : Argument → Option (BuildOption × Option String)
  | .long name value => (BuildOption.all.find? (·.long = name)).map (·, value)
  | .short c cs => (BuildOption.all.find? (·.short? = some c)).map (·, joinedValue cs)
  | _ => none

/-- A short argument asks for help by its first letter, whatever follows. -/
def asksForHelp : Argument → Bool
  | .long name value => name = "help" && value.isNone
  | .short c _ => c = 'h'
  | _ => false

/-- The arguments of `build`. -/
def readBuild (d : Draft) : List String → Except Misuse Request
  | [] => d.finish
  | text :: rest =>
    match Argument.ofText text with
    | .separator => do (← rest.foldlM Draft.takeInput d).finish
    | .plain text => do readBuild (← d.takeInput text) rest
    | argument =>
      if asksForHelp argument then .ok .help
      else
        match namedOption? argument, rest with
        | none, _ => .error (.unexpected text)
        | some (option, some value), rest => do readBuild (← d.takeValue option value) rest
        | some (option, none), [] => .error (.noValue option)
        | some (option, none), value :: rest =>
          match Argument.ofText value with
          | .plain value => do readBuild (← d.takeValue option value) rest
          | _ => .error (.noValue option)

/-- The arguments of `targets`, which takes none. -/
def readTargets : List String → Except Misuse Request
  | [] => .ok .targets
  | text :: rest =>
    match Argument.ofText text, rest with
    | .separator, [] => .ok .targets
    | .separator, input :: _ => .error (.unexpected input)
    | argument, _ => if asksForHelp argument then .ok .help else .error (.unexpected text)

/-- The arguments of `help`: at most one command. -/
def readHelp : List String → Except Misuse Request
  | [] => .ok .help
  | [name] =>
    if name ∈ ["build", "targets", "help"] then .ok .help else .error (.unknownCommand name)
  | _ :: name :: _ => .error (.unknownCommand name)

def readRequest : List String → Except Misuse Request
  | [] => .error .noCommand
  | text :: rest =>
    match Argument.ofText text with
    | .plain "build" => readBuild ⟨none, []⟩ rest
    | .plain "targets" => readTargets rest
    | .plain "help" => readHelp rest
    | .plain name => .error (.unknownCommand name)
    | .separator => .error .noCommand
    | .long "version" none => .ok .version
    | .short 'V' _ => .ok .version
    | argument => if asksForHelp argument then .ok .help else .error (.unexpected text)

/-- What running the program leaves: its exit status and what it printed where. -/
structure Outcome where
  status : UInt32
  printed : String
  complaints : String

def version : String := "polyemit 0.1.0\n"

def usage : String := "\n".intercalate [
  "Emit ActionScript, C and OpenCL C from a typed program",
  "",
  "Usage: polyemit build [OPTIONS] <INPUT>",
  "       polyemit targets",
  "       polyemit help [COMMAND]",
  "",
  "Options of build:",
  "  -t, --target <TARGET>        Target language: as, c or cl",
  "  -o, --output <OUTPUT>        Output directory (as) or file (c, cl)",
  "      --namespace <NAMESPACE>  Package of the generated ActionScript classes",
  "      --config <PATH>          Settings file (default: nearest polyemit.toml)",
  "",
  "  -h, --help                   Print help",
  "  -V, --version                Print version",
  ""]

/-- A name in a column of four. -/
def targetLine (t : Target) : String :=
  t.name ++ String.ofList (List.replicate (4 - t.name.length) ' ') ++ " ." ++ t.extension ++ "\n"

/-- A warning as a log line. Further lines of it are indented. -/
def warningLine (message : String) : String :=
  "[WARN] " ++ message.replace "\n" "\n    " ++ "\n"

def complaint (message : String) : Outcome := ⟨1, "", "error: " ++ message ++ "\n"⟩

/-- A build without a place for its output breaks off before it reads its program. Its status is
apart from that of errors, and its complaint follows an empty line. -/
def noOutput (target : String) : Outcome :=
  ⟨101, "", "\nno extension for the output: '" ++ target ++ "'\n"⟩

variable {m : Type → Type} [Monad m] [Files m]

/-- The settings for an input: those asked for, else the nearest, if there are any. -/
def findSettings (r : BuildRequest) : m (Except SettingsError (Option Settings)) := do
  let path? ←
    match r.settings with
    | some path => pure (some path)
    | none => Settings.find (r.input.parent?.getD ⟨"."⟩)
  match path? with
  | none => return .ok none
  | some path => return (← Settings.load path).map some

/-- The settings that count for a target. -/
def settingsFor (target : String) (settings : Option Settings) : Option Settings :=
  settings.filter (·.target = target)

/-- Where the output of a target goes, and its package. There is no place for the output of a
target that is no extension, unless one is given. -/
def buildOptions? (r : BuildRequest) (target : String) (settings : Option Settings) :
    Option Options := do
  let settings := settingsFor target settings
  let output ← r.output <|> settings.map (·.output) <|> defaultOutput? r.input target
  return ⟨output, r.package <|> settings.bind (·.package)⟩

/-- The warnings of a build, then its error or the number of its files. -/
def outcome (target : String) (output : Path) (report : BuildReport) : Outcome :=
  let warnings := report.notices.filter (·.level = .warning)
  let log := String.join (warnings.map fun n => warningLine n.message)
  match report.files with
  | .error e => ⟨1, "", log ++ "error: " ++ e.message ++ "\n"⟩
  | .ok files =>
    ⟨0, "", log ++ "Generated " ++ toString files.length ++ " file(s) for target '" ++ target ++
      "' in " ++ output.text ++ "\n"⟩

def runBuild (r : BuildRequest) : m Outcome := do
  match ← findSettings r with
  | .error e => return complaint e.message
  | .ok settings =>
    match r.target <|> settings.map (·.target) with
    | none => return complaint "no target given (use --target or a polyemit.toml)"
    | some target =>
      match buildOptions? r target settings with
      | none => return noOutput target
      | some options => return outcome target options.output (← build r.input target options)

def run (arguments : List String) : m Outcome := do
  match readRequest arguments with
  | .error misuse => return ⟨2, "", "error: " ++ misuse.message ++ "\n\n" ++ usage⟩
  | .ok .help => return ⟨0, usage, ""⟩
  | .ok .version => return ⟨0, version, ""⟩
  | .ok .targets => return ⟨0, String.join (Target.all.map targetLine), ""⟩
  | .ok (.build request) => runBuild request

end CommandLine

end Emitter
