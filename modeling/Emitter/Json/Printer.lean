import Emitter.Json.Basic

/-!
# Writing JSON

The compact text of a value, without white space. Quotes, backslashes and control characters are
escaped in strings; every other character stands for itself.
-/

namespace Emitter.Json

open Number

/-- The digits of `n`, with zeros in front up to `count` of them. -/
def paddedDigits (count n : Nat) : List Char :=
  let digits := Nat.toDigits 10 n
  List.replicate (count - digits.length) '0' ++ digits

def Numeral.render (n : Numeral) : List Char :=
  let body :=
    match n.places with
    | none => Nat.toDigits 10 n.digits
    | some places =>
      Nat.toDigits 10 (n.digits / Nat.pow 10 places) ++
        '.' :: paddedDigits places (n.digits % Nat.pow 10 places)
  let power :=
    match n.power with
    | none => []
    | some power => 'e' :: (toString power).toList
  (if n.negative then ['-'] else []) ++ body ++ power

/-- The characters that stand for `c` in a string. -/
def stringChar (c : Char) : List Char :=
  if c = '"' then ['\\', '"']
  else if c = '\\' then ['\\', '\\']
  else if c.toNat < 32 then
    '\\' :: 'u' :: '0' :: '0' :: [Nat.digitChar (c.toNat / 16), Nat.digitChar (c.toNat % 16)]
  else [c]

def renderString (s : String) : List Char :=
  '"' :: s.toList.flatMap stringChar ++ ['"']

mutual

/-- The text of a value. A string that denotes no text is written as an empty one. -/
def renderChars : Json → List Char
  | null => "null".toList
  | bool true => "true".toList
  | bool false => "false".toList
  | number n => n.render
  | string s => renderString (s.getD "")
  | array items => '[' :: renderItems items ++ [']']
  | object members => '\x7b' :: renderMembers members ++ ['\x7d']

def renderItems : List Json → List Char
  | [] => []
  | [item] => item.renderChars
  | item :: rest => item.renderChars ++ ',' :: renderItems rest

def renderMembers : List (Option String × Json) → List Char
  | [] => []
  | [(key, value)] => renderString (key.getD "") ++ ':' :: value.renderChars
  | (key, value) :: rest =>
    renderString (key.getD "") ++ ':' :: value.renderChars ++ ',' :: renderMembers rest

end

def render (value : Json) : String := String.ofList value.renderChars

end Emitter.Json
