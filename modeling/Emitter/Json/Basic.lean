import Emitter.Number.Text

/-!
# JSON values

A value keeps what its text says: the members of an object in order with repeated keys, and a
number as its digits rather than as a double. A string whose escapes leave a surrogate without its
partner denotes no text and is kept as `none`.
-/

namespace Emitter.Json

open Number

/-- A number as written: all its digits, how many of them stand after the point if there is one,
and the power of ten if there is one. -/
structure Numeral where
  negative : Bool
  digits : Nat
  places : Option Nat
  power : Option Int
  deriving DecidableEq

namespace Numeral

def ofNat (n : Nat) : Numeral := ⟨false, n, none, none⟩

def ofInt (n : Int) : Numeral := ⟨decide (n < 0), n.natAbs, none, none⟩

/-- The integer a numeral denotes, if it has neither point nor power. Minus zero is not one. -/
def toInt? (n : Numeral) : Option Int :=
  if n.places.isSome ∨ n.power.isSome ∨ (n.negative ∧ n.digits = 0) then none
  else some (if n.negative then -n.digits else n.digits)

/-- The double nearest to the numeral, possibly infinite. -/
def toBinary64 (n : Numeral) : Binary64 :=
  .ofDecimal n.negative ⟨n.digits, n.power.getD 0 - n.places.getD 0⟩

/-- The shortest numeral that reads back as a finite double, always with a point or a power. -/
def ofBinary64 (x : Binary64) : Numeral :=
  if x.isZero then ⟨x.isNegative, 0, some 1, none⟩
  else
    let d := x.shortest
    let whole := d.scale + digitCount d.digits
    if whole < -3 ∨ 16 < whole then ⟨x.isNegative, d.digits, none, some d.scale⟩
    else if d.scale < 0 then ⟨x.isNegative, d.digits, some (-d.scale).toNat, none⟩
    else ⟨x.isNegative, d.digits * Nat.pow 10 (d.scale.toNat + 1), some 1, none⟩

end Numeral

end Json

inductive Json
  | null
  | bool (value : Bool)
  | number (value : Json.Numeral)
  | string (value : Option String)
  | array (items : List Json)
  | object (members : List (Option String × Json))

namespace Json

def ofString (s : String) : Json := string (some s)

def ofNat (n : Nat) : Json := number (.ofNat n)

def ofInt (n : Int) : Json := number (.ofInt n)

/-- An object with the given members. -/
def record (members : List (String × Json)) : Json :=
  object (members.map fun (key, value) => (some key, value))

/-- The value of the last member with this key, a null one counting as absent. -/
def field? (key : String) : Json → Option Json
  | object members =>
    match members.reverse.lookup (some key) with
    | some null => none
    | found => found
  | _ => none

end Emitter.Json
