/-!
# Paths

A path is the text it was given as; nothing is normalized when it is joined or shown. Its pieces
are what stands between slashes. An empty piece names nothing, and neither does a `.` other than
one that opens a relative path. Parent, file name and extension look at the last piece that names
something.
-/

namespace Emitter

structure Path where
  text : String
  deriving DecidableEq, Repr

namespace Path

/-- The texts between slashes. -/
def splitAtSlash : List Char → List (List Char)
  | [] => [[]]
  | c :: cs =>
    match splitAtSlash cs with
    | [] => [[c]]
    | piece :: rest => if c = '/' then [] :: piece :: rest else (c :: piece) :: rest

theorem splitAtSlash_ne_nil (cs : List Char) : splitAtSlash cs ≠ [] := by
  cases cs with
  | nil => simp [splitAtSlash]
  | cons c cs =>
    unfold splitAtSlash
    split
    · simp
    · split <;> simp

/-- Slashes between the texts give what was cut. -/
theorem intercalate_splitAtSlash (cs : List Char) :
    List.intercalate ['/'] (splitAtSlash cs) = cs := by
  induction cs with
  | nil => simp [splitAtSlash]
  | cons c cs ih =>
    unfold splitAtSlash
    split
    · rename_i nothing
      exact absurd nothing (splitAtSlash_ne_nil cs)
    · rename_i piece rest found
      rw [found] at ih
      split
      · rename_i slash
        rw [List.intercalate_cons_of_ne_nil (by simp), ih, slash]
        rfl
      · cases rest with
        | nil => simpa using ih
        | cons next rest =>
          rw [List.intercalate_cons_of_ne_nil (by simp)] at ih ⊢
          simpa using ih

def pieces (p : Path) : List (List Char) := splitAtSlash p.text.toList

/-- The text of pieces with slashes between them. -/
def joinPieces (pieces : List (List Char)) : String :=
  String.ofList (List.intercalate ['/'] pieces)

theorem joinPieces_pieces (p : Path) : joinPieces p.pieces = p.text := by
  simp [joinPieces, pieces, intercalate_splitAtSlash]

def isAbsolute (p : Path) : Bool := p.text.toList.head? = some '/'

/-- The pieces in reverse order, from the last one that names something. A `.` at the very front
counts, since every piece before it would have to be empty. -/
def dropNameless : List (List Char) → List (List Char)
  | [] => []
  | [piece] => if piece.isEmpty then [] else [piece]
  | piece :: rest => if piece.isEmpty ∨ piece = ['.'] then dropNameless rest else piece :: rest

/-- The pieces up to the last one that names something, last one first. -/
def namedPieces (p : Path) : List (List Char) := dropNameless p.pieces.reverse

/-- The path of the given pieces, last one first, of a path that may start at the root. -/
def ofReversed (absolute : Bool) (reversed : List (List Char)) : Path :=
  match dropNameless reversed with
  | [] => ⟨if absolute then "/" else ""⟩
  | named => ⟨joinPieces named.reverse⟩

/-- The path without its last component. The root and the empty path have no parent. -/
def parent? (p : Path) : Option Path :=
  match p.namedPieces with
  | [] => none
  | _ :: rest => some (ofReversed p.isAbsolute rest)

/-- The paths of the given pieces, last one first, and of what remains as the last ones are taken
away. A nameless piece makes no path of its own. -/
def ancestorsOf (absolute : Bool) : List (List Char) → List Path
  | [] => [ofReversed absolute []]
  | piece :: rest =>
    if dropNameless (piece :: rest) = piece :: rest then
      ofReversed absolute (piece :: rest) :: ancestorsOf absolute rest
    else ancestorsOf absolute rest

/-- The path, its parent, the parent's parent and so on. -/
def ancestors (p : Path) : List Path :=
  match p.namedPieces with
  | [] => [p]
  | _ :: rest => p :: ancestorsOf p.isAbsolute rest

/-- The last component, if it is a name. -/
def fileName? (p : Path) : Option (List Char) :=
  match p.namedPieces with
  | [] => none
  | name :: _ => if name = ['.'] ∨ name = ['.', '.'] then none else some name

/-- A file name cut at its last dot into stem and extension. A dot that opens the name cuts
nothing. -/
def cutExtension (name : List Char) : List Char × Option (List Char) :=
  let after := (name.reverse.takeWhile (· ≠ '.')).reverse
  if after.length + 1 < name.length then
    (name.take (name.length - after.length - 1), some after)
  else (name, none)

/-- What stands after the last dot of the file name. -/
def extension? (p : Path) : Option (List Char) := do (cutExtension (← p.fileName?)).2

/-- The path with `extension` after the stem of its file name, or with the stem alone where
`extension` is empty. Nothing changes where there is no file name. -/
def setExtension (p : Path) (extension : String) : Path :=
  match p.fileName? with
  | none => p
  | some name =>
    let stem := joinPieces (((cutExtension name).1 :: p.namedPieces.drop 1).reverse)
    ⟨if extension = "" then stem else stem ++ "." ++ extension⟩

/-- The path without the last `count` characters of its text. -/
def dropLast (p : Path) (count : Nat) : Path :=
  ⟨String.ofList (p.text.toList.take (p.text.toList.length - count))⟩

/-- The path with another extension, or without one where `extension` is empty. As many characters
as the old extension has go from the end before the new one is set: of `..x` that leaves `..`, which
is no file name and stays as it is. -/
def withExtension (p : Path) (extension : String) : Path :=
  (p.dropLast ((p.extension?.map List.length).getD 0)).setExtension extension

/-- A text with a slash is no extension, since what follows the slash would be a file name. -/
def isExtension (text : String) : Bool := !text.toList.contains '/'

/-- The path below `p`, or `below` itself where that starts at the root. -/
def join (p below : Path) : Path :=
  if below.isAbsolute then below
  else if p.text = "" ∨ p.text.toList.getLast? = some '/' then ⟨p.text ++ below.text⟩
  else ⟨p.text ++ "/" ++ below.text⟩

end Path

end Emitter
