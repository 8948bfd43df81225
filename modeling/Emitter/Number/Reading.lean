import Emitter.Number.Binary64

/-!
# Reading a decimal to the nearest double

`Binary64.ofDecimal` rounds `digits * 10 ^ scale` to the nearest double, a tie to the even
significand, in exact integer arithmetic. A magnitude that rounds past the largest finite double
gives infinity and one that rounds below the smallest gives zero.
-/

namespace Emitter.Number

/-- A decimal number `digits * 10 ^ scale`. -/
structure Decimal where
  digits : Nat
  scale : Int
  deriving DecidableEq, Repr

/-- The quotient rounded to the nearest integer, a tie to the even one. -/
def roundHalfEven (num den : Nat) : Nat :=
  let quotient := num / den
  let twice := 2 * (num % den)
  if twice < den then quotient
  else if den < twice then quotient + 1
  else quotient + quotient % 2

/-- The number of decimal digits; zero has one. -/
def digitCount (n : Nat) : Nat := (Nat.toDigits 10 n).length

namespace Binary64

/-- The power of two whose multiples are the doubles around `num / den`. -/
def gridExponent (num den : Nat) : Int :=
  let guess : Int := max ((num.log2 : Int) - den.log2 - 53) (-1074)
  let scaled :=
    if guess < 0 then num * Nat.pow 2 (-guess).toNat / den else num / (den * Nat.pow 2 guess.toNat)
  if scaled < Nat.pow 2 53 then guess else guess + 1

/-- The magnitude bits of the double nearest to `num / den`, possibly past infinity's. -/
def nearestMagnitude (num den : Nat) : Nat :=
  let grid := gridExponent num den
  let rounded :=
    if grid < 0 then roundHalfEven (num * Nat.pow 2 (-grid).toNat) den
    else roundHalfEven num (den * Nat.pow 2 grid.toNat)
  (grid + 1074).toNat * Nat.pow 2 52 + rounded

/-- The double nearest to a decimal. Scales far outside the range are settled by the number of
digits alone. -/
def ofDecimal (negative : Bool) (d : Decimal) : Binary64 :=
  let leading := d.scale + digitCount d.digits
  if d.digits = 0 ∨ leading < -400 then zero negative
  else if 400 < leading then infinity negative
  else
    let magnitude :=
      if d.scale < 0 then nearestMagnitude d.digits (Nat.pow 10 (-d.scale).toNat)
      else nearestMagnitude (d.digits * Nat.pow 10 d.scale.toNat) 1
    ofMagnitude negative (min magnitude infiniteMagnitude)

end Binary64

end Emitter.Number
