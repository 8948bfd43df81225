import Emitter.Number.Reading
import Emitter.Toml.Basic

/-!
# Numbers, truth values and moments in TOML

A scalar without quotes is a run of characters up to a space or a delimiter, and is one of the
forms below as a whole. Digits may have single underscores between them.
-/

namespace Emitter.Toml

open Number

/-- Digits after the first one, each with at most one underscore in front. -/
def moreDigits (isDigit : Char → Bool) : List Char → Bool
  | [] => true
  | '_' :: c :: cs => isDigit c && moreDigits isDigit cs
  | c :: cs => isDigit c && moreDigits isDigit cs

/-- A digit, then more digits. -/
def isDigits (isDigit : Char → Bool) : List Char → Bool
  | [] => false
  | c :: cs => isDigit c && moreDigits isDigit cs

/-- Digits without a leading zero, or a zero alone. -/
def isWhole (cs : List Char) : Bool :=
  cs = ['0'] || (cs.head? ≠ some '0' && isDigits Char.isDigit cs)

/-- The value of a hexadecimal digit, or more than any digit's. -/
def digitOf (c : Char) : Nat :=
  if c.isDigit then c.toNat - 48
  else if 'a' ≤ c ∧ c ≤ 'f' then c.toNat - 87
  else if 'A' ≤ c ∧ c ≤ 'F' then c.toNat - 55
  else 16

/-- The value of digits in a base, underscores left out. -/
def valueOf (base : Nat) (cs : List Char) : Nat :=
  (cs.filter (· ≠ '_')).foldl (fun n c => base * n + digitOf c) 0

/-- The sign in front, negative or not, and the rest. -/
def takeSign : List Char → Bool × List Char
  | '+' :: cs => (false, cs)
  | '-' :: cs => (true, cs)
  | cs => (false, cs)

/-- An unsigned integer in a base other than ten, after its two-character mark. -/
def based? (base : Nat) (cs : List Char) : Option Int :=
  if isDigits (fun c => decide (digitOf c < base)) cs ∧ valueOf base cs ≤ Int64.maxValue.toInt then
    some (valueOf base cs)
  else none

def integer? : List Char → Option Int
  | '0' :: 'x' :: cs => based? 16 cs
  | '0' :: 'o' :: cs => based? 8 cs
  | '0' :: 'b' :: cs => based? 2 cs
  | cs =>
    let (negative, digits) := takeSign cs
    let value : Int := if negative then -valueOf 10 digits else valueOf 10 digits
    if isWhole digits ∧ Int64.minValue.toInt ≤ value ∧ value ≤ Int64.maxValue.toInt then some value
    else none

/-- A power of ten after its letter. -/
def isPower (cs : List Char) : Bool := isDigits Char.isDigit (takeSign cs).2

def powerOf (cs : List Char) : Int :=
  let (negative, digits) := takeSign cs
  if negative then -valueOf 10 digits else valueOf 10 digits

def isPowerLetter (c : Char) : Bool := c = 'e' || c = 'E'

/-- A number with a fraction, a power or both. One that is too large is no float, unless it is
below zero. -/
def isDecimalFloat (cs : List Char) : Bool :=
  let (negative, body) := takeSign cs
  let mantissa := body.takeWhile (!isPowerLetter ·)
  let power := (body.dropWhile (!isPowerLetter ·)).drop 1
  let whole := mantissa.takeWhile (· ≠ '.')
  let fraction := (mantissa.dropWhile (· ≠ '.')).drop 1
  let hasPower := decide (mantissa.length < body.length)
  let hasPoint := decide (whole.length < mantissa.length)
  let places := (fraction.filter (· ≠ '_')).length
  let value := Binary64.ofDecimal negative
    ⟨valueOf 10 (whole ++ fraction), (if hasPower then powerOf power else 0) - places⟩
  isWhole whole && (hasPower || hasPoint) && (!hasPoint || isDigits Char.isDigit fraction) &&
    (!hasPower || isPower power) && (negative || value.isFinite)

def isFloat (cs : List Char) : Bool :=
  (takeSign cs).2 = "inf".toList || (takeSign cs).2 = "nan".toList || isDecimalFloat cs

/-- A number of exactly `count` digits and what follows it. -/
def fixedDigits (count : Nat) (cs : List Char) : Option (Nat × List Char) :=
  let digits := cs.take count
  if digits.length = count ∧ digits.all Char.isDigit then
    some (valueOf 10 digits, cs.drop count)
  else none

/-- Twenty-nine days in February of leap years. -/
def daysIn (year month : Nat) : Nat :=
  if month = 2 then
    if year % 4 = 0 ∧ (year % 100 ≠ 0 ∨ year % 400 = 0) then 29 else 28
  else if month ∈ [4, 6, 9, 11] then 30 else 31

/-- What follows a date. -/
def afterDate (cs : List Char) : Option (List Char) := do
  let (year, cs) ← fixedDigits 4 cs
  let '-' :: cs := cs | none
  let (month, cs) ← fixedDigits 2 cs
  let '-' :: cs := cs | none
  let (day, cs) ← fixedDigits 2 cs
  if 1 ≤ month ∧ month ≤ 12 ∧ 1 ≤ day ∧ day ≤ daysIn year month then some cs else none

/-- What follows a time of day, which may have fractions of a second. -/
def afterTime (cs : List Char) : Option (List Char) := do
  let (hour, cs) ← fixedDigits 2 cs
  let ':' :: cs := cs | none
  let (minute, cs) ← fixedDigits 2 cs
  let ':' :: cs := cs | none
  let (second, cs) ← fixedDigits 2 cs
  if 23 < hour ∨ 59 < minute ∨ 60 < second then none
  else
    match cs with
    | '.' :: c :: rest =>
      if c.isDigit then some (rest.dropWhile Char.isDigit) else none
    | '.' :: [] => none
    | cs => some cs

/-- Nothing, or the distance from universal time. -/
def isOffset : List Char → Bool
  | [] => true
  | [c] => c = 'Z' || c = 'z'
  | c :: cs =>
    (c = '+' || c = '-') && (do
      let (hour, cs) ← fixedDigits 2 cs
      let ':' :: cs := cs | none
      let (minute, cs) ← fixedDigits 2 cs
      if hour ≤ 23 ∧ minute ≤ 59 ∧ cs.isEmpty then some () else none).isSome

def isMoment (cs : List Char) : Bool :=
  match afterDate cs with
  | some [] => true
  | some (c :: rest) =>
    (c = 'T' || c = 't' || c = ' ') && (afterTime rest).any isOffset
  | none => (afterTime cs).any List.isEmpty

/-- The value of a run of characters without quotes. -/
def scalar? (cs : List Char) : Option Toml :=
  if cs = "true".toList then some (.boolean true)
  else if cs = "false".toList then some (.boolean false)
  else if isMoment cs then some .moment
  else if isFloat cs then some .float
  else (integer? cs).map .integer

def endsScalar (c : Char) : Bool :=
  c = ' ' || c = '\t' || c = '\n' || c = '\r' || c = ',' || c = ']' || c = '\x7d' || c = '#'

/-- The run of characters in front. A date and a time of day may have one space between them. -/
def takeScalar (cs : List Char) : List Char × List Char :=
  let run := cs.takeWhile (!endsScalar ·)
  let rest := cs.dropWhile (!endsScalar ·)
  match rest with
  | ' ' :: c :: _ =>
    if afterDate run = some [] ∧ c.isDigit then
      let time := (rest.drop 1).takeWhile (!endsScalar ·)
      (run ++ ' ' :: time, rest.drop (time.length + 1))
    else (run, rest)
  | _ => (run, rest)

def readScalar (cs : List Char) : Option (Toml × List Char) := do
  let (run, rest) := takeScalar cs
  return (← scalar? run, rest)

end Emitter.Toml
