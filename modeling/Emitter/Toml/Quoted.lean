/-!
# Strings in TOML

Four kinds of strings: with escapes or without, on one line or over several. In a string over
several lines a line feed right after the opening is dropped, a line ending is one line feed, and
up to two quotes may stand right before the closing ones.
-/

namespace Emitter.Toml

/-- A character that may stand in a string or comment as it is: no control character but the
tab. -/
def isPlain (c : Char) : Bool := c = '\t' || (32 ≤ c.toNat && c.toNat ≠ 127)

def hexDigit? (c : Char) : Option Nat :=
  if c.isDigit then some (c.toNat - 48)
  else if 'a' ≤ c ∧ c ≤ 'f' then some (c.toNat - 87)
  else if 'A' ≤ c ∧ c ≤ 'F' then some (c.toNat - 55)
  else none

/-- The character with the code that the digits give, if there is one. -/
def codeChar? (digits : List Char) : Option Char := do
  let values ← digits.mapM hexDigit?
  let code := values.foldl (fun n d => 16 * n + d) 0
  if code.isValidChar then some (Char.ofNat code) else none

/-- The character an escape stands for, and what follows the escape. -/
def readEscape : List Char → Option (Char × List Char)
  | 'b' :: cs => some ('\x08', cs)
  | 't' :: cs => some ('\t', cs)
  | 'n' :: cs => some ('\n', cs)
  | 'f' :: cs => some ('\x0c', cs)
  | 'r' :: cs => some ('\r', cs)
  | '"' :: cs => some ('"', cs)
  | '\\' :: cs => some ('\\', cs)
  | 'u' :: cs =>
    if cs.length < 4 then none else (codeChar? (cs.take 4)).map (·, cs.drop 4)
  | 'U' :: cs =>
    if cs.length < 8 then none else (codeChar? (cs.take 8)).map (·, cs.drop 8)
  | _ => none

/-- The text of a string with escapes on one line, after its opening quote. -/
def readBasic : Nat → List Char → Option (List Char × List Char)
  | 0, _ => none
  | fuel + 1, cs =>
    match cs with
    | '"' :: rest => some ([], rest)
    | '\\' :: rest => do
      let (c, rest) ← readEscape rest
      let (text, rest) ← readBasic fuel rest
      return (c :: text, rest)
    | c :: rest =>
      if isPlain c then (readBasic fuel rest).map fun (text, rest) => (c :: text, rest) else none
    | [] => none

/-- The text of a string without escapes on one line, after its opening quote. -/
def readLiteral : List Char → Option (List Char × List Char)
  | '\'' :: rest => some ([], rest)
  | c :: rest =>
    if isPlain c then (readLiteral rest).map fun (text, rest) => (c :: text, rest) else none
  | [] => none

/-- The text without a line ending at its front. -/
def dropLineEnd : List Char → List Char
  | '\n' :: cs => cs
  | '\r' :: '\n' :: cs => cs
  | cs => cs

/-- The quotes that belong to the text where at least three stand in front, and what follows the
closing three. No more than two can belong to the text. -/
def readClosing (quote : Char) (cs : List Char) : Option (List Char × List Char) :=
  let count := (cs.takeWhile (· = quote)).length
  if count < 3 then none
  else
    let kept := min (count - 3) 2
    some (List.replicate kept quote, cs.drop (kept + 3))

/-- What follows a backslash at the end of a line: white space up to the line's end, then all
white space and line endings after it. -/
def afterLineBreak (cs : List Char) : Option (List Char) :=
  match cs.dropWhile fun c => c = ' ' || c = '\t' with
  | '\n' :: rest => some (skip rest)
  | '\r' :: '\n' :: rest => some (skip rest)
  | _ => none
where
  skip : List Char → List Char
    | '\r' :: '\n' :: cs => skip cs
    | c :: cs => if c = ' ' ∨ c = '\t' ∨ c = '\n' then skip cs else c :: cs
    | [] => []

/-- The text of a string over several lines, after its opening quotes. -/
def readLines (quote : Char) : Nat → List Char → Option (List Char × List Char)
  | 0, _ => none
  | fuel + 1, cs =>
    match readClosing quote cs with
    | some found => some found
    | none =>
      let next (c : Char) (rest : List Char) :=
        (readLines quote fuel rest).map fun (text, rest) => (c :: text, rest)
      match cs with
      | '\r' :: '\n' :: rest => next '\n' rest
      | '\n' :: rest => next '\n' rest
      | '\\' :: rest =>
        if quote = '\'' then next '\\' rest
        else
          match afterLineBreak rest with
          | some rest => readLines quote fuel rest
          | none =>
            match readEscape rest with
            | some (c, rest) => next c rest
            | none => none
      | c :: rest => if isPlain c then next c rest else none
      | [] => none

/-- A string in front, of any of the four kinds. -/
def readString (cs : List Char) : Option (String × List Char) :=
  let fuel := cs.length + 1
  let found :=
    match cs with
    | '"' :: '"' :: '"' :: rest => readLines '"' fuel (dropLineEnd rest)
    | '\'' :: '\'' :: '\'' :: rest => readLines '\'' fuel (dropLineEnd rest)
    | '"' :: rest => readBasic fuel rest
    | '\'' :: rest => readLiteral rest
    | _ => none
  found.map fun (text, rest) => (String.ofList text, rest)

/-- A string on one line in front, as keys are quoted. -/
def readLineString (cs : List Char) : Option (String × List Char) :=
  let found :=
    match cs with
    | '"' :: rest => readBasic (cs.length + 1) rest
    | '\'' :: rest => readLiteral rest
    | _ => none
  found.map fun (text, rest) => (String.ofList text, rest)

end Emitter.Toml
