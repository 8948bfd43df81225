import Emitter.Number.Reading

/-!
# The shortest decimal that reads back

A finite double is an exact decimal. `Binary64.shortest` cuts that decimal after one, two, three,
… digits and takes the first cut whose lower or upper neighbour reads back as the same double; of
two such neighbours the nearer one, and of two equally near ones the upper one. The last cut is
the exact decimal itself, so the search always ends.
-/

namespace Emitter.Number

/-- The decimal with its trailing zeros moved into the scale. -/
def Decimal.stripZeros : Nat → Decimal → Decimal
  | 0, d => d
  | fuel + 1, d =>
    if d.digits ≠ 0 ∧ d.digits % 10 = 0 then stripZeros fuel ⟨d.digits / 10, d.scale + 1⟩ else d

namespace Binary64

/-- The exact decimal value of a finite double's magnitude. -/
def exactDecimal (x : Binary64) : Decimal :=
  if x.exponent < 0 then
    let places := (-x.exponent).toNat
    ⟨x.significand * Nat.pow 5 places, -places⟩
  else ⟨x.significand * Nat.pow 2 x.exponent.toNat, 0⟩

/-- The decimal's magnitude reads back as that of `x`. -/
def readsBack (x : Binary64) (d : Decimal) : Bool :=
  ofDecimal x.isNegative d = x

/-- The neighbour of `exact` that keeps all but `dropped` digits and reads back, if one does. -/
def cutAt (x : Binary64) (exact : Decimal) (dropped : Nat) : Option Decimal :=
  let unit := Nat.pow 10 dropped
  let lower : Decimal := ⟨exact.digits / unit, exact.scale + dropped⟩
  let upper : Decimal := ⟨exact.digits / unit + 1, exact.scale + dropped⟩
  let nearerIsLower := decide (2 * (exact.digits % unit) < unit)
  match x.readsBack lower, x.readsBack upper with
  | true, true => some (if nearerIsLower then lower else upper)
  | true, false => some lower
  | false, true => some upper
  | false, false => none

/-- The first cut that reads back, dropping fewer and fewer digits. -/
def firstCut (x : Binary64) (exact : Decimal) : Nat → Decimal
  | 0 => exact
  | dropped + 1 => (x.cutAt exact dropped).getD (x.firstCut exact dropped)

/-- The shortest decimal that reads back as the magnitude of a finite double. -/
def shortest (x : Binary64) : Decimal :=
  let exact := x.exactDecimal
  let count := digitCount exact.digits
  (x.firstCut exact count).stripZeros (count + 1)

end Binary64

end Emitter.Number
