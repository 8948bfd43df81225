import Emitter.Text.Quoted

/-!
# Lexemes

Printed code is a list of lexemes: the tokens of the target language and the single spaces between
them. A name that the code only has because a header or a helper supplies it remembers which.
-/

namespace Emitter.Layout

open Text

/-- The standard headers of C that printed code may need, in the order they are included. -/
inductive Header
  | math
  | stdbool
  | stddef
  | stdint
  | stdio
  | stdlib
  | string
  deriving DecidableEq, Repr

namespace Header

def all : List Header := [math, stdbool, stddef, stdint, stdio, stdlib, string]

/-- The name before `.h`. -/
def stem : Header → String
  | math => "math"
  | stdbool => "stdbool"
  | stddef => "stddef"
  | stdint => "stdint"
  | stdio => "stdio"
  | stdlib => "stdlib"
  | string => "string"

end Header

/-- Functions that are printed along with the code that calls them, on targets without them. -/
inductive Helper
  | stringEquality
  | stringLength
  | substring
  | copyArray
  | bytesToString
  | clearArray
  | divideElement
  deriving DecidableEq, Repr

/-- What supplies a name. -/
inductive Supplier
  | header (header : Header)
  | helper (helper : Helper)
  deriving DecidableEq, Repr

/-- A token of printed code, or the space between two tokens. A `quoted` lexeme holds the text that
the literal denotes. -/
inductive Lexeme
  | word (text : String)
  | supplied (name : String) (supplier : Supplier)
  | number (text : String)
  | quoted (contents : String)
  | symbol (text : String)
  | gap
  deriving DecidableEq

abbrev Code := List Lexeme

namespace Lexeme

def text : Lexeme → String
  | word text | supplied text _ | number text | symbol text => text
  | quoted contents => Text.quoted contents
  | gap => " "

def supplier? : Lexeme → Option Supplier
  | supplied _ supplier => some supplier
  | _ => none

end Lexeme

namespace Code

def text (code : Code) : String := String.join (code.map Lexeme.text)

/-- The text ends in a star, as the spelling of a pointer type does. -/
def endsInStar (code : Code) : Bool := code.text.toList.getLast? = some '*'

/-- Comma and space. -/
def comma : Code := [.symbol ",", .gap]

/-- The pieces with a comma between any two neighbours. -/
def commaSeparated (pieces : List Code) : Code := (pieces.intersperse comma).flatten

def parenthesized (code : Code) : Code := .symbol "(" :: code ++ [.symbol ")"]

/-- A binary operator with a space on either side. -/
def operator (text : String) : Code := [.gap, .symbol text, .gap]

/-- The decimal text of an integer, its sign a symbol of its own. -/
def integer (n : Int) : Code :=
  if n < 0 then [.symbol "-", .number (toString n.natAbs)] else [.number (toString n.natAbs)]

end Code

end Emitter.Layout
