import Emitter.Layout.Lexeme
import Mathlib.Tactic

/-!
# The tokens of a text

How a compiler of the target language cuts a text into tokens: from the left, each token as long
as it can be. A number is a preprocessing number of C, so it takes in every letter, digit and
point that follows it, and a sign after an exponent letter. The openers of comments count as
tokens, since no expression may hold one.
-/

namespace Emitter.Reading

section Decidable

variable {p : Char → Prop} [DecidablePred p]

/-! What is said of the characters in a list is decided by going through the list, and not through
all characters there are. -/

instance (priority := 1100) decidableForallMemList (cs : List Char) :
    Decidable (∀ c ∈ cs, p c) := List.decidableBAll p cs

instance (priority := 1100) decidableExistsMemList (cs : List Char) :
    Decidable (∃ c ∈ cs, p c) := List.decidableBEx p cs

instance (priority := 1100) decidableForallMemOption (o : Option Char) :
    Decidable (∀ c ∈ o, p c) := Option.decidableForallMem o

instance (priority := 1100) decidableExistsMemOption (o : Option Char) :
    Decidable (∃ c ∈ o, p c) := Option.decidableExistsMem o

end Decidable

/-- A token. A `quoted` token holds the text that the literal denotes. -/
inductive Token
  | word (text : String)
  | number (text : String)
  | quoted (contents : String)
  | symbol (text : String)
  deriving DecidableEq

/-- Letters, the underscore, and every character beyond ASCII. -/
def isWordStart (c : Char) : Bool := c.isAlpha || c == '_' || decide (128 ≤ c.toNat)

def isWordChar (c : Char) : Bool := isWordStart c || c.isDigit

/-- The character goes on with a number that ends in `before`. -/
def continuesNumber (before c : Char) : Bool :=
  isWordChar c || c == '.' ||
    ((c == '+' || c == '-') && (before == 'e' || before == 'E' || before == 'p' || before == 'P'))

/-- The operators and separators. Every beginning of one is one as well, so that the longest can
be found one character after the other. -/
def operators : List (List Char) :=
  [['('], [')'], ['['], [']'], ['\x7b'], ['\x7d'], ['.'], [','], [';'], [':'], ['?'], ['~'],
    ['!'], ['+'], ['-'], ['*'], ['/'], ['%'], ['<'], ['>'], ['='], ['&'], ['|'], ['^'], ['#'],
    ['-', '>'], ['+', '+'], ['-', '-'], ['<', '<'], ['>', '>'], ['<', '='], ['>', '='],
    ['=', '='], ['!', '='], ['&', '&'], ['|', '|'], ['+', '='], ['-', '='], ['*', '='],
    ['/', '='], ['%', '='], ['&', '='], ['|', '='], ['^', '='], [':', ':'], ['/', '/'],
    ['/', '*'], ['<', '<', '='], ['>', '>', '='], ['=', '=', '='], ['!', '=', '='],
    ['>', '>', '>'], ['>', '>', '>', '=']]

/-- What an escape sequence in a literal stands for. -/
def unescape : Char → Option Char
  | '"' => some '"'
  | '\\' => some '\\'
  | 'n' => some '\n'
  | 'r' => some '\r'
  | 't' => some '\t'
  | _ => none

/-- What a scanner is in the middle of, with the characters of it that it has read. -/
inductive Mode
  | between
  | word (read : List Char)
  | number (read : List Char)
  | opened (read : List Char)
  | escaping (read : List Char)
  | closed (read : List Char)
  | symbol (read : List Char)
  deriving DecidableEq

namespace Mode

/-- The mode after the first character of a token. -/
def start (c : Char) : Option Mode :=
  if c = ' ' ∨ c = '\t' ∨ c = '\n' then some between
  else if isWordStart c then some (word [c])
  else if c.isDigit then some (number [c])
  else if c = '"' then some (opened [])
  else if [c] ∈ operators then some (symbol [c])
  else none

/-- The mode after one more character of the same token, if the character belongs to it. -/
def extend : Mode → Char → Option Mode
  | between, _ => none
  | word read, c => if isWordChar c then some (word (read ++ [c])) else none
  | number read, c =>
    if read.getLast?.any (continuesNumber · c) then some (number (read ++ [c])) else none
  | opened read, c =>
    if c = '"' then some (closed read)
    else if c = '\\' then some (escaping read)
    else if c = '\n' then none
    else some (opened (read ++ [c]))
  | escaping read, c => (unescape c).map fun d => opened (read ++ [d])
  | closed _, _ => none
  | symbol read, c =>
    if read = ['.'] ∧ c.isDigit then some (number ['.', c])
    else if read ++ [c] ∈ operators then some (symbol (read ++ [c]))
    else none

/-- The token that ends here. A literal must not end before its closing quote. -/
def settle : Mode → Option (List Token)
  | between => some []
  | word read => some [.word (String.ofList read)]
  | number read => some [.number (String.ofList read)]
  | closed read => some [.quoted (String.ofList read)]
  | symbol read => some [.symbol (String.ofList read)]
  | opened _ | escaping _ => none

end Mode

/-- The tokens of the characters, from the middle of a token on. -/
def scanFrom : Mode → List Char → Option (List Token)
  | mode, [] => mode.settle
  | mode, c :: cs =>
    match mode.extend c with
    | some next => scanFrom next cs
    | none => do
      let ended ← mode.settle
      let next ← Mode.start c
      return ended ++ (← scanFrom next cs)

/-- The tokens of a text, if it can be read as tokens at all. -/
def scan (text : String) : Option (List Token) := scanFrom .between text.toList

namespace Mode

@[simp] theorem extend_between (c : Char) : between.extend c = none := rfl

@[simp] theorem settle_between : between.settle = some [] := rfl

/-- The mode after more characters, all of the same token. -/
def follow (mode : Mode) (cs : List Char) : Option Mode := cs.foldlM extend mode

@[simp] theorem follow_nil (mode : Mode) : mode.follow [] = some mode := rfl

@[simp] theorem follow_cons (mode : Mode) (c : Char) (cs : List Char) :
    mode.follow (c :: cs) = (mode.extend c).bind (·.follow cs) := rfl

theorem follow_word {cs : List Char} (h : cs.all isWordChar = true) (read : List Char) :
    (word read).follow cs = some (word (read ++ cs)) := by
  induction cs generalizing read with
  | nil => simp
  | cons c cs ih =>
      obtain ⟨hc, hcs⟩ : isWordChar c = true ∧ cs.all isWordChar = true := by simpa using h
      simp [extend, hc, ih hcs]

end Mode

/-- Every character goes on with the number that ends in the one before it. -/
def numberTail : Char → List Char → Bool
  | _, [] => true
  | before, c :: cs => continuesNumber before c && numberTail c cs

theorem Mode.follow_number {cs : List Char} {before : Char} (h : numberTail before cs = true)
    {read : List Char} (hr : read.getLast? = some before) :
    (number read).follow cs = some (number (read ++ cs)) := by
  induction cs generalizing read before with
  | nil => simp
  | cons c cs ih =>
      obtain ⟨hc, hcs⟩ : continuesNumber before c = true ∧ numberTail c cs = true := by
        simpa [numberTail] using h
      simp [extend, hr, hc, ih hcs]

/-- Between the quotes of a literal its contents are read back, the closing quote included. -/
theorem Mode.follow_opened (contents read : List Char) :
    (opened read).follow (Text.escaped contents ++ ['"']) = some (closed (read ++ contents)) := by
  induction contents generalizing read with
  | nil => simp [Text.escaped, extend]
  | cons c cs ih =>
      have hstep : (opened read).follow (Text.escapedChar c) = some (opened (read ++ [c])) := by
        unfold Text.escapedChar
        split_ifs <;> simp_all [extend, unescape]
      have happend : (opened read).follow (Text.escapedChar c ++ (Text.escaped cs ++ ['"'])) =
          (opened (read ++ [c])).follow (Text.escaped cs ++ ['"']) := by
        rw [follow, List.foldlM_append]
        exact (congrArg (· >>= _) hstep)
      rw [Text.escaped, List.flatMap_cons, List.append_assoc]
      refine happend.trans ?_
      simpa using ih (read ++ [c])

/-- An operator is read character by character. -/
theorem Mode.follow_operator {op : List Char} (h : op ∈ operators) :
    (op.head?.bind start).bind (·.follow op.tail) = some (symbol op) := by
  have hall : ∀ op ∈ operators,
      (op.head?.bind start).bind (·.follow op.tail) = some (symbol op) := by decide
  exact hall op h

theorem scanFrom_follow {mode next : Mode} {cs : List Char} (h : mode.follow cs = some next)
    (rest : List Char) : scanFrom mode (cs ++ rest) = scanFrom next rest := by
  induction cs generalizing mode with
  | nil =>
      cases h
      rfl
  | cons c cs ih =>
      rw [Mode.follow_cons, Option.bind_eq_some_iff] at h
      obtain ⟨after, hc, hcs⟩ := h
      simp only [List.cons_append, scanFrom, hc]
      exact ih hcs

theorem scanFrom_start {next : Mode} {c : Char} (h : Mode.start c = some next)
    (cs : List Char) : scanFrom .between (c :: cs) = scanFrom next cs := by
  simp [scanFrom, h]

/-- A token ends where the next character does not belong to it. -/
theorem scanFrom_settle {mode : Mode} {ended : List Token} (h : mode.settle = some ended)
    {cs : List Char} (hcs : ∀ c ∈ cs.head?, mode.extend c = none) :
    scanFrom mode cs = (scanFrom .between cs).map (ended ++ ·) := by
  cases cs with
  | nil => simp [scanFrom, h]
  | cons c cs =>
      have hc : mode.extend c = none := hcs c (by simp)
      simp only [scanFrom, hc, h, Mode.extend_between, Mode.settle_between]
      cases Mode.start c with
      | none => rfl
      | some next => cases hs : scanFrom next cs <;> simp [hs]

end Emitter.Reading
