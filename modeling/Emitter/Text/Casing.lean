import Emitter.Text.CaseTable

/-!
# Upper and lower case of a character

Case mapping of single characters without context. A mapping may give several characters, as the
upper case of `ß` does.
-/

namespace Emitter.Text

/-- The code point a table maps `code` to, or `code` itself. -/
def mappedCode (runs : List CaseRun) (code : Nat) : Nat :=
  match runs.find? (·.covers code) with
  | some run => (code + run.shift).toNat
  | none => code

/-- The lower case of a character. Only the dotted capital `İ` gives two characters. -/
def lowercase (c : Char) : List Char :=
  if c = 'İ' then ['i', '\u0307'] else [Char.ofNat (mappedCode lowerRuns c.toNat)]

/-- The upper case of a character. -/
def uppercase (c : Char) : List Char :=
  match upperExpansions.lookup c.toNat with
  | some codes => codes.map Char.ofNat
  | none => [Char.ofNat (mappedCode upperRuns c.toNat)]

def isUppercase (c : Char) : Bool := uppercaseRuns.any (·.covers c.toNat)

def isLowercase (c : Char) : Bool := lowercaseRuns.any (·.covers c.toNat)

end Emitter.Text
