import Emitter.Toml.Draft
import Emitter.Toml.Quoted
import Emitter.Toml.Scalar

/-!
# Reading TOML

A document is a sequence of statements, at most one on a line: a key with its value, the header of
a table, or the header of one more table in a list. Arrays and tables on one line nest up to a
limit, which is also the limit to the parts of a key. The readers of values spend one unit of fuel a
call, of which a text needs fewer than twice its length.
-/

namespace Emitter.Toml

def skipBlank (cs : List Char) : List Char := cs.dropWhile fun c => c = ' ' || c = '\t'

def isBare (c : Char) : Bool := c.isAlphanum || c = '_' || c = '-'

/-- The text without a comment at its front. -/
def skipComment : List Char → List Char
  | '#' :: cs => cs.dropWhile isPlain
  | cs => cs

/-- The text without blanks, comments and line endings at its front. -/
def skipLines : Nat → List Char → List Char
  | 0, cs => cs
  | fuel + 1, cs =>
    match skipComment (skipBlank cs) with
    | '\n' :: rest => skipLines fuel rest
    | '\r' :: '\n' :: rest => skipLines fuel rest
    | rest => rest

/-- What follows the end of a statement: blanks, a comment, and the line's end or the text's. -/
def endOfLine (cs : List Char) : Option (List Char) :=
  match skipComment (skipBlank cs) with
  | '\n' :: rest => some rest
  | '\r' :: '\n' :: rest => some rest
  | [] => some []
  | _ => none

/-- A key between dots. -/
def readSimpleKey (cs : List Char) : Option (String × List Char) :=
  match cs.takeWhile isBare with
  | [] => readLineString cs
  | bare => some (String.ofList bare, cs.dropWhile isBare)

/-- How deep arrays and tables on one line may nest, and how many parts a key may have. -/
def depthLimit : Nat := 79

/-- A key of one or more parts with dots between them, and of no more than `limit` parts. -/
def readKeyWithin : (limit : Nat) → List Char → Option (List String × List Char)
  | 0, _ => none
  | limit + 1, cs => do
    let (name, cs) ← readSimpleKey cs
    match skipBlank cs with
    | '.' :: cs =>
      let (path, rest) ← readKeyWithin limit (skipBlank cs)
      return (name :: path, rest)
    | cs => return ([name], cs)

def readKey (cs : List Char) : Option (List String × List Char) := readKeyWithin depthLimit cs

mutual

/-- A value in which arrays and tables nest no more than `depth` levels. -/
def readValue : Nat → (depth : Nat) → List Char → Option (Toml × List Char)
  | 0, _, _ => none
  | fuel + 1, depth, cs =>
    match cs with
    | '"' :: _ => (readString cs).map fun (text, rest) => (.string text, rest)
    | '\'' :: _ => (readString cs).map fun (text, rest) => (.string text, rest)
    | '[' :: cs =>
      match depth with
      | 0 => none
      | depth + 1 => (readItems fuel depth cs).map fun (items, rest) => (.array items, rest)
    | '\x7b' :: cs =>
      match depth, skipBlank cs with
      | 0, _ => none
      | _ + 1, '\x7d' :: rest => some (.table [], rest)
      | depth + 1, cs => (readInline fuel depth cs []).map fun (entries, rest) =>
        (.table (entriesToToml entries), rest)
    | cs => readScalar cs

/-- The items of an array after its opening bracket or a comma. A comma may follow the last one,
and lines may end anywhere between items. -/
def readItems : Nat → (depth : Nat) → List Char → Option (List Toml × List Char)
  | 0, _, _ => none
  | fuel + 1, depth, cs =>
    match skipLines cs.length cs with
    | ']' :: rest => some ([], rest)
    | cs => do
      let (item, cs) ← readValue fuel depth cs
      match skipLines cs.length cs with
      | ',' :: cs =>
        let (items, rest) ← readItems fuel depth cs
        return (item :: items, rest)
      | ']' :: rest => return ([item], rest)
      | _ => none

/-- The entries of a table on one line, up to its closing brace. No comma follows the last one. -/
def readInline : Nat → (depth : Nat) → List Char → Entries → Option (Entries × List Char)
  | 0, _, _, _ => none
  | fuel + 1, depth, cs, entries => do
    let (key, cs) ← readKey cs
    let '=' :: cs := skipBlank cs | none
    let (value, cs) ← readValue fuel depth (skipBlank cs)
    let entries ← insertDotted value key entries
    match skipBlank cs with
    | ',' :: cs => readInline fuel depth (skipBlank cs) entries
    | '\x7d' :: rest => return (entries, rest)
    | _ => none

end

inductive Statement
  | entry (key : List String) (value : Toml)
  | table (path : List String)
  | listed (path : List String)

def readStatement (cs : List Char) : Option (Statement × List Char) :=
  match cs with
  | '[' :: '[' :: cs => do
    let (path, cs) ← readKey (skipBlank cs)
    let ']' :: ']' :: rest := skipBlank cs | none
    return (.listed path, rest)
  | '[' :: cs => do
    let (path, cs) ← readKey (skipBlank cs)
    let ']' :: rest := skipBlank cs | none
    return (.table path, rest)
  | cs => do
    let (key, cs) ← readKey cs
    let '=' :: cs := skipBlank cs | none
    let (value, rest) ← readValue (2 * cs.length + 2) depthLimit (skipBlank cs)
    return (.entry key value, rest)

/-- The statements of a document. -/
def readStatements : Nat → List Char → Option (List Statement)
  | 0, _ => none
  | fuel + 1, cs =>
    match skipLines cs.length cs with
    | [] => some []
    | cs => do
      let (statement, cs) ← readStatement cs
      return statement :: (← readStatements fuel (← endOfLine cs))

/-- A document under construction, and the path of the last header. -/
def applyStatement (doc : Entries × List String) : Statement → Option (Entries × List String)
  | .entry key value => (insertBelow doc.2 key value doc.1).map (·, doc.2)
  | .table path => (openTable path doc.1).map (·, path)
  | .listed path => (openListed path doc.1).map (·, path)

/-- The top-level table of a document. A byte order mark at its front is skipped. -/
def parse? (text : String) : Option (List (String × Toml)) := do
  let cs :=
    match text.toList with
    | '\uFEFF' :: cs => cs
    | cs => cs
  let statements ← readStatements (cs.length + 1) cs
  let (entries, _) ← statements.foldlM applyStatement ([], [])
  return entriesToToml entries

end Emitter.Toml
