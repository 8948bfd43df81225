import Emitter.Toml.Basic

/-!
# Tables under construction

The tables of a document are filled statement by statement. A table remembers how it came about,
since that decides what may still be put into it: a header opens a table that headers below it
implied, but never one that was opened before; a dotted key goes into tables that dotted keys made;
a value that was written out is complete.
-/

namespace Emitter.Toml

inductive Origin
  | implied
  | header
  | dotted
  deriving DecidableEq

/-- A table's entry: a complete value, a table, or a list of tables with the last one first. -/
inductive Draft
  | complete (value : Toml)
  | table (origin : Origin) (entries : List (String × Draft))
  | tables (reversed : List (List (String × Draft)))

abbrev Entries := List (String × Draft)

/-- The entries with another draft under a name they already have. -/
def replace (entries : Entries) (name : String) (draft : Draft) : Entries :=
  entries.map fun entry => if entry.1 = name then (name, draft) else entry

/-- Changes what stands under a name, or adds it. -/
def change (entries : Entries) (name : String) (f : Option Draft → Option Draft) :
    Option Entries :=
  match entries.lookup name with
  | some draft => (f (some draft)).map (replace entries name)
  | none => (f none).map fun draft => entries ++ [(name, draft)]

/-- Puts a value under a dotted key. -/
def insertDotted (value : Toml) : List String → Entries → Option Entries
  | [], _ => none
  | [name], entries => change entries name fun
    | none => some (.complete value)
    | some _ => none
  | name :: path, entries => change entries name fun
    | none => (insertDotted value path []).map (.table .dotted)
    | some (.table .dotted inner) => (insertDotted value path inner).map (.table .dotted)
    | some _ => none

/-- Changes the table that a header names. On the way to it, missing tables are implied and of a
list of tables the last one is meant. -/
def changeAt (f : Option Draft → Option Draft) : List String → Entries → Option Entries
  | [], _ => none
  | [name], entries => change entries name f
  | name :: path, entries => change entries name fun
    | none => (changeAt f path []).map (.table .implied)
    | some (.table origin inner) => (changeAt f path inner).map (.table origin)
    | some (.tables (last :: earlier)) => (changeAt f path last).map (.tables <| · :: earlier)
    | some _ => none

/-- Opens the table that a header names. -/
def openTable : List String → Entries → Option Entries :=
  changeAt fun
    | none => some (.table .header [])
    | some (.table .implied inner) => some (.table .header inner)
    | some _ => none

/-- Opens one more table of the list that a header names. -/
def openListed : List String → Entries → Option Entries :=
  changeAt fun
    | none => some (.tables [[]])
    | some (.tables reversed) => some (.tables ([] :: reversed))
    | some _ => none

/-- Puts a value under a dotted key of the table that the last header opened. -/
def insertBelow (path key : List String) (value : Toml) (entries : Entries) : Option Entries :=
  if path.isEmpty then insertDotted value key entries
  else
    entries |> changeAt (fun
      | some (.table origin inner) => (insertDotted value key inner).map (.table origin)
      | some (.tables (last :: earlier)) =>
        (insertDotted value key last).map (.tables <| · :: earlier)
      | _ => none) path

mutual

/-- The finished value. -/
def Draft.toToml : Draft → Toml
  | .complete value => value
  | .table _ entries => .table (entriesToToml entries)
  | .tables reversed => .array (tablesToToml reversed).reverse

def entriesToToml : List (String × Draft) → List (String × Toml)
  | [] => []
  | (name, draft) :: rest => (name, draft.toToml) :: entriesToToml rest

def tablesToToml : List (List (String × Draft)) → List Toml
  | [] => []
  | entries :: rest => .table (entriesToToml entries) :: tablesToToml rest

end

end Emitter.Toml
