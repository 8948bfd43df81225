import Emitter.Number.Shortest

/-!
# The text of a double

Zero and magnitudes from `10 ^ -4` up to, but not including, `10 ^ 16` are written with a point
and at least one digit on either side of it. All others are written with one digit before the
point and a power of ten, as in `1e16` and `1.5e-7`.
-/

namespace Emitter.Number

/-- The decimal digits of a number, most significant first. -/
def digitText (n : Nat) : List Char := Nat.toDigits 10 n

/-- The digits with `whole` of them before the point, filled with zeros where they run out. -/
def pointText (digits : List Char) (whole : Int) : List Char :=
  if whole ≤ 0 then
    '0' :: '.' :: List.replicate (-whole).toNat '0' ++ digits
  else if digits.length ≤ whole.toNat then
    digits ++ List.replicate (whole.toNat - digits.length) '0' ++ ['.', '0']
  else digits.take whole.toNat ++ '.' :: digits.drop whole.toNat

/-- One digit, the rest after a point if there are any, and the power of ten. -/
def powerText (digits : List Char) (power : Int) : List Char :=
  let fraction := digits.drop 1
  digits.take 1 ++ (if fraction.isEmpty then [] else '.' :: fraction) ++
    'e' :: (toString power).toList

namespace Binary64

/-- The text of a finite double's magnitude. -/
def magnitudeText (x : Binary64) : String :=
  if x.isZero then "0.0"
  else
    let d := x.shortest
    let digits := digitText d.digits
    let whole := d.scale + digits.length
    String.ofList <|
      if -3 ≤ whole ∧ whole ≤ 16 then pointText digits whole else powerText digits (whole - 1)

/-- The text of a double: the sign, then the magnitude, `inf` or `NaN`. A NaN has no sign. -/
def text (x : Binary64) : String :=
  if x.isNaN then "NaN"
  else
    let magnitude := if x.isInfinite then "inf" else x.magnitudeText
    if x.isNegative then "-" ++ magnitude else magnitude

/-- The text of a double, with a fraction added where nothing marks it as floating point. -/
def literalText (x : Binary64) : String :=
  let t := x.text
  if t.toList.any (fun c => c = '.' || c = 'e' || c = 'E') then t else t ++ ".0"

end Binary64

end Emitter.Number
