import Emitter.Proofs.Reading.Scanner
import Emitter.Target.Basic

/-!
# The grammar of expressions

Expressions are read by the precedence table of C, which ActionScript shares: binary operators of
one level associate to the left, the conditional operator to the right, and prefix operators and
casts bind tighter than any binary operator and looser than selection, indexing and calls. A tree
knows no types and no parentheses. ActionScript has no casts and no `sizeof`.
-/

namespace Emitter.Reading

/-- What an expression of the target language is made of, without types and parentheses. -/
inductive Tree
  | name (text : String)
  | number (text : String)
  | text (contents : String)
  | items (elements : List Tree)
  | member (obj : Tree) (selector name : String)
  | element (array position : Tree)
  | call (callee : Tree) (args : List Tree)
  | prefixed (op : String) (operand : Tree)
  | postfixed (op : String) (operand : Tree)
  | cast (type : List String) (operand : Tree)
  | binary (op : String) (left right : Tree)
  | select (cond onTrue onFalse : Tree)

/-- The levels of the binary operators, from the loosest to the tightest. -/
def binaryLevels : List (String × Nat) :=
  [("||", 1), ("&&", 2), ("|", 3), ("^", 4), ("&", 5), ("==", 6), ("!=", 6),
    ("<", 7), ("<=", 7), (">", 7), (">=", 7), ("<<", 8), (">>", 8), ("+", 9), ("-", 9),
    ("*", 10), ("/", 10), ("%", 10)]

def binaryLevel? (op : String) : Option Nat := binaryLevels.lookup op

theorem mem_binaryLevels {op : String} {level : Nat} (h : binaryLevel? op = some level) :
    (op, level) ∈ binaryLevels := by
  obtain ⟨before, after, hsplit, -⟩ := List.lookup_eq_some_iff.mp h
  simp [hsplit]

/-- The operators that stand before their operand. -/
def prefixOperators : Target → List Token
  | .actionScript => signs
  | .cFamily _ => signs ++ [.symbol "&", .symbol "*", .word "sizeof"]
where
  signs : List Token :=
    [.symbol "-", .symbol "+", .symbol "!", .symbol "~", .symbol "++", .symbol "--"]

/-- The words that types are spelled with in a cast. -/
def typeWords : Target → List String
  | .actionScript => []
  | .cFamily .standard => plain ++ ["int8_t", "uint8_t", "int16_t", "uint16_t", "int64_t"]
  | .cFamily .openCL => plain ++ ["uchar", "ushort", "uint", "ulong"]
where
  plain : List String :=
    ["void", "bool", "char", "short", "int", "long", "float", "double", "signed", "unsigned"]

def Token.text : Token → String
  | word s | number s | quoted s | symbol s => s

/-- Lists of tokens with a comma between any two neighbours. -/
def commaTokens (pieces : List (List Token)) : List Token :=
  (pieces.intersperse [.symbol ","]).flatten

/-- A parenthesized type is never a parenthesized expression. -/
def Tree.isType (t : Target) : Tree → Prop
  | name w => w ∈ typeWords t
  | _ => False

/-- The tokens are an expression of the given level or a tighter one, and have the given tree.
Level 0 is the conditional operator, 1 to 10 are those of the binary operators, 11 is that of
prefix operators and casts, 12 of postfix operators, and 13 of what cannot be taken apart. -/
inductive Parses (t : Target) : Nat → List Token → Tree → Prop
  | name {text : String} (h : .word text ∉ prefixOperators t) :
      Parses t 13 [.word text] (.name text)
  | number (text : String) : Parses t 13 [.number text] (.number text)
  | text (contents : String) : Parses t 13 [.quoted contents] (.text contents)
  | group {ts : List Token} {tree : Tree} (h : Parses t 0 ts tree) (ht : ¬tree.isType t) :
      Parses t 13 (.symbol "(" :: (ts ++ [.symbol ")"])) tree
  | items {pieces : List (List Token × Tree)} (h : ∀ p ∈ pieces, Parses t 0 p.1 p.2) :
      Parses t 13 (.symbol "[" :: (commaTokens (pieces.map Prod.fst) ++ [.symbol "]"]))
        (.items (pieces.map Prod.snd))
  | member {ts : List Token} {obj : Tree} {selector : String} (h : Parses t 12 ts obj)
      (hs : selector = "." ∨ selector = "->") (name : String) :
      Parses t 12 (ts ++ [.symbol selector, .word name]) (.member obj selector name)
  | element {as ps : List Token} {array position : Tree} (ha : Parses t 12 as array)
      (hp : Parses t 0 ps position) :
      Parses t 12 (as ++ .symbol "[" :: (ps ++ [.symbol "]"])) (.element array position)
  | call {fs : List Token} {callee : Tree} {pieces : List (List Token × Tree)}
      (hf : Parses t 12 fs callee) (h : ∀ p ∈ pieces, Parses t 0 p.1 p.2) :
      Parses t 12 (fs ++ .symbol "(" :: (commaTokens (pieces.map Prod.fst) ++ [.symbol ")"]))
        (.call callee (pieces.map Prod.snd))
  | postfixed {ts : List Token} {operand : Tree} {op : String} (h : Parses t 12 ts operand)
      (hop : op = "++" ∨ op = "--") :
      Parses t 12 (ts ++ [.symbol op]) (.postfixed op operand)
  | prefixed {ts : List Token} {operand : Tree} {op : Token} (hop : op ∈ prefixOperators t)
      (h : Parses t 11 ts operand) : Parses t 11 (op :: ts) (.prefixed op.text operand)
  | cast {ts : List Token} {operand : Tree} {type : List String} (hne : type ≠ [])
      (htype : ∀ w ∈ type, w ∈ typeWords t) (h : Parses t 11 ts operand) :
      Parses t 11 (.symbol "(" :: (type.map .word ++ .symbol ")" :: ts)) (.cast type operand)
  | binary {ls rs : List Token} {left right : Tree} {op : String} {level : Nat}
      (hop : binaryLevel? op = some level) (hl : Parses t level ls left)
      (hr : Parses t (level + 1) rs right) :
      Parses t level (ls ++ .symbol op :: rs) (.binary op left right)
  | select {cs as bs : List Token} {cond onTrue onFalse : Tree} (hc : Parses t 1 cs cond)
      (ha : Parses t 0 as onTrue) (hb : Parses t 0 bs onFalse) :
      Parses t 0 (cs ++ .symbol "?" :: (as ++ .symbol ":" :: bs)) (.select cond onTrue onFalse)
  | looser {level : Nat} {ts : List Token} {tree : Tree} (h : Parses t (level + 1) ts tree) :
      Parses t level ts tree

namespace Parses

variable {t : Target} {ts : List Token} {tree : Tree}

theorem mono {level level' : Nat} (h : Parses t level' ts tree) (hle : level ≤ level') :
    Parses t level ts tree := by
  induction level', hle using Nat.le_induction with
  | base => exact h
  | succ level' _ ih => exact ih h.looser

end Parses

end Emitter.Reading
