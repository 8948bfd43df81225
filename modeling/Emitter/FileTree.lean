import Emitter.Files

/-!
# Trees of files

A tree of files as a value: what stands at each location, and the directory that relative paths
start from. A path is followed one piece after the other, each from a directory that exists; an
empty piece and `.` stay where they are, and `..` goes back. There are no links.
-/

namespace Emitter

/-- A place in the tree: the names that lead there, the last one first. -/
abbrev Location := List String

inductive Entry
  | file (contents : ByteArray)
  | directory

-- The comparison of contents is the core library's, whatever else is imported.
instance : DecidableEq Entry
  | .file first, .file second =>
    match ByteArray.instDecidableEq first second with
    | isTrue h => isTrue (congrArg Entry.file h)
    | isFalse h => isFalse fun heq => h (Entry.file.inj heq)
  | .directory, .directory => isTrue rfl
  | .file _, .directory | .directory, .file _ => isFalse Entry.noConfusion

structure FileTree where
  /-- Where relative paths start. -/
  current : Location
  entries : List (Location × Entry)

namespace FileTree

/-- An empty directory of the given name at the root, where relative paths start. -/
def work (name : String) : FileTree := ⟨[name], [([name], .directory)]⟩

/-- What stands at a location. The root is always a directory. -/
def at? (t : FileTree) : Location → Option Entry
  | [] => some .directory
  | l => t.entries.lookup l

/-- Puts an entry at a location, in place of what stood there. -/
def put (t : FileTree) (l : Location) (e : Entry) : FileTree :=
  { t with entries := (l, e) :: t.entries.filter (·.1 ≠ l) }

theorem lookup_filter_ne {l l' : Location} (apart : l' ≠ l) (entries : List (Location × Entry)) :
    (entries.filter (·.1 ≠ l)).lookup l' = entries.lookup l' := by
  induction entries with
  | nil => rfl
  | cons entry rest ih =>
    obtain ⟨place, e⟩ := entry
    by_cases here : place = l
    · subst here
      have other : (l' == place) = false := beq_eq_false_iff_ne.2 apart
      simpa [List.filter_cons, List.lookup_cons, other] using ih
    · have kept : (place != l) = true := bne_iff_ne.2 here
      cases same : l' == place <;> simp_all [List.lookup_cons]

/-- Putting an entry changes its own location, unless that is the root, and no other. -/
theorem at?_put (t : FileTree) (l l' : Location) (e : Entry) :
    (t.put l e).at? l' =
      if l' = [] then some .directory else if l' = l then some e else t.at? l' := by
  cases l' with
  | nil => simp [at?]
  | cons name outer =>
    by_cases same : name :: outer = l
    · subst same
      simp [at?, put]
    · have other : (name :: outer == l) = false := beq_eq_false_iff_ne.2 same
      have kept := lookup_filter_ne same t.entries
      simp only [at?, put, List.lookup_cons, other, same]
      simpa using kept

/-- The files of the tree. -/
def files (t : FileTree) : List (Location × ByteArray) :=
  t.entries.filterMap fun
    | (l, .file contents) => some (l, contents)
    | (_, .directory) => none

/-- Follows one piece of a path. -/
def step (t : FileTree) (here : Location) (piece : String) : Except FileError Location :=
  match t.at? here with
  | none => .error .missing
  | some (.file _) => .error .notDirectory
  | some .directory =>
    if piece = "" ∨ piece = "." then .ok here
    else if piece = ".." then .ok here.tail
    else if 255 < piece.utf8ByteSize then .error .nameTooLong
    else .ok (piece :: here)

/-- Where the pieces of a path lead. Something need not stand there. -/
def follow (t : FileTree) (start : Location) (pieces : List String) : Except FileError Location :=
  pieces.foldlM t.step start

/-- The location a path names. A path names none if it is empty, holds a NUL, or is too long. -/
def locate (t : FileTree) (p : Path) : Except FileError Location :=
  if p.text.toList.contains '\x00' then .error .nulInName
  else if p.text = "" then .error .missing
  else if 4095 < p.text.utf8ByteSize then .error .nameTooLong
  else t.follow (if p.isAbsolute then [] else t.current) (p.pieces.map String.ofList)

/-- What a path names. -/
def lookUp (t : FileTree) (p : Path) : Except FileError Entry := do
  match t.at? (← t.locate p) with
  | some e => return e
  | none => throw .missing

/-- The path without slashes at its end. -/
def withoutTrailingSlash (p : Path) : Path :=
  ⟨String.ofList (p.text.toList.reverse.dropWhile (· = '/')).reverse⟩

def readText (t : FileTree) (p : Path) : Except FileError String := do
  match ← t.lookUp p with
  | .directory => throw .isDirectory
  | .file contents =>
    match String.fromUTF8? contents with
    | some text => return text
    | none => throw .notText

def isPresent (t : FileTree) (p : Path) : Bool := (t.lookUp p).isOk

def isDirectory (t : FileTree) (p : Path) : Bool :=
  match t.lookUp p with
  | .ok .directory => true
  | _ => false

/-- Makes a directory. Slashes at the end of its path do not matter. -/
def makeDirectory (t : FileTree) (p : Path) : Except FileError FileTree := do
  let named := withoutTrailingSlash p
  let l ← t.locate (if named.text = "" then p else named)
  match t.at? l with
  | some _ => throw .alreadyExists
  | none => return t.put l .directory

/-- Writes a file. A path that ends in a slash names a directory, present or not, once the
directory it would stand in is found. -/
def writeText (t : FileTree) (p : Path) (contents : String) : Except FileError FileTree := do
  let named := withoutTrailingSlash p
  if named ≠ p then
    let _ ← t.locate ⟨Path.joinPieces (named.pieces.dropLast ++ [['.']])⟩
    throw .isDirectory
  let l ← t.locate p
  match t.at? l with
  | some .directory => throw .isDirectory
  | _ => return t.put l (.file contents.toUTF8)

/-- A question that changes nothing. -/
def ask {α : Type} (f : FileTree → α) : StateM FileTree α := return f (← get)

/-- A change that happens unless it is refused. -/
def attempt (f : FileTree → Except FileError FileTree) : StateM FileTree (Except FileError Unit) :=
  fun t =>
    match f t with
    | .ok changed => (.ok (), changed)
    | .error e => (.error e, t)

instance : Files (StateM FileTree) where
  readText p := ask (·.readText p)
  isPresent p := ask (·.isPresent p)
  isDirectory p := ask (·.isDirectory p)
  makeDirectory p := attempt (·.makeDirectory p)
  writeText p contents := attempt (·.writeText p contents)

end FileTree

end Emitter
