import Emitter.Json.Basic

/-!
# Typed reading of JSON values

A decoder reads one kind of value. Its first argument is how many more arrays and objects may be
nested around what it reads; every array or object it enters takes one.

A record is an object with one member for each field, or an array of the fields in order; members
with other names are ignored, but no field may be given twice. A choice is the name of the chosen
case, or an object whose only member is named for the case and holds its data.
-/

namespace Emitter.Json

open Number

abbrev Decoder (α : Type) := Nat → Json → Option α

namespace Decoder

variable {α β : Type}

def text : Decoder String
  | _, string s => s
  | _, _ => none

def truth : Decoder Bool
  | _, bool b => some b
  | _, _ => none

/-- An integer between two bounds, both included. -/
def integer (low high : Int) : Decoder Int
  | _, number n => n.toInt?.filter fun value => low ≤ value && value ≤ high
  | _, _ => none

def int64 : Decoder Int64 := fun budget j =>
  (integer Int64.minValue.toInt Int64.maxValue.toInt budget j).map Int64.ofInt

def int32 : Decoder Int32 := fun budget j =>
  (integer Int32.minValue.toInt Int32.maxValue.toInt budget j).map Int32.ofInt

def uint64 : Decoder UInt64 := fun budget j =>
  (integer 0 (UInt64.size - 1) budget j).map fun n => UInt64.ofNat n.toNat

def uint32 : Decoder UInt32 := fun budget j =>
  (integer 0 (UInt32.size - 1) budget j).map fun n => UInt32.ofNat n.toNat

def uint8 : Decoder UInt8 := fun budget j =>
  (integer 0 255 budget j).map fun n => UInt8.ofNat n.toNat

/-- Any number within the range of finite doubles. -/
def float : Decoder Binary64
  | _, number n => some n.toBinary64 |>.filter (·.isFinite)
  | _, _ => none

/-- A text of exactly one character. -/
def char : Decoder Char
  | _, string (some s) =>
    match s.toList with
    | [c] => some c
    | _ => none
  | _, _ => none

def list (item : Decoder α) : Decoder (List α)
  | budget + 1, array items => items.mapM (item budget)
  | _, _ => none

/-- A value, or null for none. -/
def nullable (value : Decoder α) : Decoder (Option α)
  | _, null => some none
  | budget, j => (value budget j).map some

/-- The names and values of an object whose names all denote texts. -/
def namedMembers (members : List (Option String × Json)) : Option (List (String × Json)) :=
  members.mapM fun (key, value) => key.map (·, value)

/-- No name of the list occurs twice among the keys. -/
def givenOnce (names : List String) (members : List (String × Json)) : Bool :=
  names.all fun name => decide ((members.filter (·.1 = name)).length ≤ 1)

/-- A record, its fields given to `read` in the order of `names`, each absent or present. -/
def record (names : List String) (read : Nat → List (Option Json) → Option α) : Decoder α
  | budget + 1, object members => do
    let members ← namedMembers members
    if givenOnce names members then
      read budget (names.map fun name => List.lookup name members)
    else none
  | budget + 1, array items =>
    if items.length ≤ names.length then
      read budget (items.map some ++ List.replicate (names.length - items.length) none)
    else none
  | _, _ => none

/-- A field that has to be present. -/
def required (value : Decoder α) (budget : Nat) (slot : Option Json) : Option α :=
  slot.bind (value budget)

/-- A field that stands for `fallback` when absent. -/
def optional (value : Decoder α) (fallback : α) (budget : Nat) (slot : Option Json) : Option α :=
  match slot with
  | some j => value budget j
  | none => some fallback

/-- What a case of a choice looks like: without data, or with data of its own. -/
inductive Case (α : Type)
  | bare (value : α)
  | holding (data : Decoder α)

/-- A choice among named cases. A case without data may also be written with a null. -/
def choice (cases : String → Option (Case α)) : Decoder α
  | _, string (some name) =>
    match cases name with
    | some (.bare value) => some value
    | _ => none
  | budget + 1, object [(some name, j)] =>
    match cases name, j with
    | some (.bare value), null => some value
    | some (.holding data), j => data budget j
    | _, _ => none
  | _, _ => none

def map (f : α → β) (value : Decoder α) : Decoder β := fun budget j =>
  (value budget j).map f

end Decoder

end Emitter.Json
