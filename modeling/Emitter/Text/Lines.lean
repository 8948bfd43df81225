/-!
# The lines of a text

A line ends at a line feed, and a carriage return right before the line feed belongs to the ending.
What follows the last line feed is a line only if it is not empty.
-/

namespace Emitter.Text

/-- The line without a carriage return at its end. -/
def dropReturn (line : List Char) : List Char :=
  if line.getLast? = some '\r' then line.dropLast else line

/-- The lines of the text that `line` and `cs` make together, `line` holding no line feed. -/
def linesFrom : List Char → List Char → List (List Char)
  | line, [] => if line.isEmpty then [] else [line]
  | line, c :: cs =>
    if c = '\n' then dropReturn line :: linesFrom [] cs else linesFrom (line ++ [c]) cs

/-- The lines of a text, without their endings. -/
def linesOf (text : String) : List String :=
  (linesFrom [] text.toList).map String.ofList

end Emitter.Text
