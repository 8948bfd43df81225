/-!
# Quoted text

A string literal stands between double quotes, and five characters are written as a backslash and
a letter or sign: the quote, the backslash, and the three common control characters.
-/

namespace Emitter.Text

/-- The characters that stand for `c` between quotes. -/
def escapedChar (c : Char) : List Char :=
  if c = '"' then ['\\', '"']
  else if c = '\\' then ['\\', '\\']
  else if c = '\n' then ['\\', 'n']
  else if c = '\r' then ['\\', 'r']
  else if c = '\t' then ['\\', 't']
  else [c]

/-- The text between the quotes of a literal. -/
def escaped (cs : List Char) : List Char := cs.flatMap escapedChar

/-- The literal that denotes `s`. -/
def quoted (s : String) : String := String.ofList ('"' :: escaped s.toList ++ ['"'])

end Emitter.Text
