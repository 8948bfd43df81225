/-!
# Double-precision numbers by their bits

A `Binary64` is the 64-bit pattern itself, so two numbers are equal exactly when their patterns
are, and the sign of zero is never lost. The magnitude of a finite number is
`significand * 2 ^ exponent`, in exact integers.
-/

namespace Emitter.Number

/-- A double-precision number, held as its bit pattern. -/
structure Binary64 where
  bits : UInt64
  deriving DecidableEq, Inhabited, Repr

namespace Binary64

/-- The sign bit is set. -/
def isNegative (x : Binary64) : Bool := decide (Nat.pow 2 63 ≤ x.bits.toNat)

/-- The eleven exponent bits. -/
def exponentField (x : Binary64) : Nat := x.bits.toNat / Nat.pow 2 52 % Nat.pow 2 11

/-- The fifty-two bits below the exponent. -/
def fractionField (x : Binary64) : Nat := x.bits.toNat % Nat.pow 2 52

def isFinite (x : Binary64) : Bool := decide (x.exponentField ≠ 2047)

def isInfinite (x : Binary64) : Bool := decide (x.exponentField = 2047 ∧ x.fractionField = 0)

def isNaN (x : Binary64) : Bool := decide (x.exponentField = 2047 ∧ x.fractionField ≠ 0)

def isZero (x : Binary64) : Bool := decide (x.exponentField = 0 ∧ x.fractionField = 0)

/-- Strictly below zero, as a comparison of numbers: false of both zeros and of every NaN. -/
def isBelowZero (x : Binary64) : Bool := x.isNegative && !x.isZero && !x.isNaN

/-- The integer significand of a finite number, with the hidden bit of a normal one. -/
def significand (x : Binary64) : Nat :=
  if x.exponentField = 0 then x.fractionField else Nat.pow 2 52 + x.fractionField

/-- The power of two that scales the significand of a finite number. -/
def exponent (x : Binary64) : Int := (max x.exponentField 1 : Nat) - 1075

/-- The pattern with the given sign over a magnitude below `2 ^ 63`. -/
def ofMagnitude (negative : Bool) (magnitude : Nat) : Binary64 :=
  ⟨UInt64.ofNat (magnitude + if negative then Nat.pow 2 63 else 0)⟩

/-- The pattern of infinity without its sign, above every finite magnitude. -/
def infiniteMagnitude : Nat := 2047 * Nat.pow 2 52

def zero (negative : Bool) : Binary64 := ofMagnitude negative 0

def infinity (negative : Bool) : Binary64 := ofMagnitude negative infiniteMagnitude

/-- The quiet NaN with an empty payload. -/
def nan : Binary64 := ofMagnitude false (infiniteMagnitude + Nat.pow 2 51)

end Binary64

end Emitter.Number
