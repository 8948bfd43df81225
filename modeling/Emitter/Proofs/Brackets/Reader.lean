import Emitter.CFamily.Lowering
import Emitter.Proofs.Reading.Numerals
import Emitter.Proofs.Reading.Words

/-!
# Brackets and quotes in a text

A reader goes through a text and keeps the brackets that are still open. What stands between quotes
it only follows to the closing quote, which has to come on the same line. Printed code that is made
of names without brackets and quotes leaves such a reader where it was, wherever it stands.
-/

namespace Emitter.Brackets

open Layout Program Reading Text

/-- Where a reader of a text stands: the brackets that are to be closed, the innermost first, each
by the bracket that closes it, and in a literal the quote that ends it and whether a backslash
stands right before. -/
structure Reader where
  awaited : List Char
  literal? : Option (Char × Bool)
  deriving DecidableEq

/-- A reader outside all literals. -/
abbrev awaiting (awaited : List Char) : Reader := ⟨awaited, none⟩

def isQuote (c : Char) : Bool := c = '"' || c = '\x27'

/-- The bracket that closes an opening one. -/
def closing? (c : Char) : Option Char :=
  if c = '(' then some ')'
  else if c = '[' then some ']'
  else if c = '\x7b' then some '\x7d'
  else none

def isClosing (c : Char) : Bool := c = ')' || c = ']' || c = '\x7d'

/-- Outside literals only the innermost bracket may be closed, and no literal goes on in the next
line. -/
def Reader.step (r : Reader) (c : Char) : Option Reader :=
  match r.literal? with
  | some (quote, escaped) =>
    if c = '\n' ∨ c = '\r' then none
    else if escaped then some ⟨r.awaited, some (quote, false)⟩
    else if c = '\\' then some ⟨r.awaited, some (quote, true)⟩
    else if c = quote then some (awaiting r.awaited)
    else some r
  | none =>
    if isQuote c then some ⟨r.awaited, some (c, false)⟩
    else
      match closing? c with
      | some close => some (awaiting (close :: r.awaited))
      | none =>
        if isClosing c then
          (if r.awaited.head? = some c then some (awaiting r.awaited.tail) else none)
        else some r

/-- Reads a text. -/
def Reader.read (r : Reader) (text : String) : Option Reader := text.toList.foldlM step r

/-- Outside literals, brackets are closed in the opposite order of that in which they are opened,
each by its own kind and all of them before the end, and every literal ends on its line. -/
def WellNested (text : String) : Prop := (awaiting []).read text = some (awaiting [])

/-- The text leaves a reader outside literals where it was. -/
def Neutral (text : String) : Prop :=
  ∀ awaited, (awaiting awaited).read text = some (awaiting awaited)

theorem Neutral.wellNested {text : String} (h : Neutral text) : WellNested text := h []

/-- The brackets to be closed behind a text, which has to end outside literals. -/
def nest (awaited : List Char) (text : String) : Option (List Char) :=
  ((awaiting awaited).read text).bind fun r => if r.literal?.isNone then some r.awaited else none

theorem nest_eq_some {awaited after : List Char} {text : String} :
    nest awaited text = some after ↔ (awaiting awaited).read text = some (awaiting after) := by
  unfold nest
  cases (awaiting awaited).read text with
  | none => simp
  | some r =>
      obtain ⟨brackets, literal?⟩ := r
      cases literal? <;> simp [awaiting]

theorem Neutral.nest_eq {text : String} (h : Neutral text) (awaited : List Char) :
    nest awaited text = some awaited := nest_eq_some.mpr (h awaited)

namespace Reader

variable {r r' : Reader} {text rest : String}

@[simp] theorem read_empty (r : Reader) : r.read "" = some r := rfl

theorem read_append (r : Reader) (text rest : String) :
    r.read (text ++ rest) = (r.read text).bind (·.read rest) := by
  simp [read, List.foldlM_append]

/-- The reader inside further brackets. -/
def within (r : Reader) (outer : List Char) : Reader := { r with awaited := r.awaited ++ outer }

theorem step_within {c : Char} (h : r.step c = some r') (outer : List Char) :
    (r.within outer).step c = some (r'.within outer) := by
  obtain ⟨awaited, literal?⟩ := r
  cases literal? with
  | some literal =>
      simp only [step, within] at h ⊢
      split_ifs at h ⊢ <;> obtain rfl := Option.some.inj h <;> rfl
  | none =>
      cases hquote : isQuote c with
      | true =>
          obtain rfl : Reader.mk awaited (some (c, false)) = r' := by simpa [step, hquote] using h
          simp [step, within, hquote]
      | false =>
          cases hopen : closing? c with
          | some close =>
              obtain rfl : awaiting (close :: awaited) = r' := by
                simpa [step, hquote, hopen] using h
              simp [step, within, hquote, hopen]
          | none =>
              cases hclosing : isClosing c with
              | false =>
                  obtain rfl : awaiting awaited = r' := by
                    simpa [step, hquote, hopen, hclosing] using h
                  simp [step, within, hquote, hopen, hclosing]
              | true =>
                  -- What is closed here was opened here.
                  cases awaited with
                  | nil => simp [step, hquote, hopen, hclosing] at h
                  | cons close awaited =>
                      obtain ⟨rfl, rfl⟩ : close = c ∧ awaiting awaited = r' := by
                        simpa [step, hquote, hopen, hclosing] using h
                      simp [step, within, hquote, hopen, hclosing]

/-- What is read without a look at the brackets around it can be read inside any. -/
theorem read_within (h : r.read text = some r') (outer : List Char) :
    (r.within outer).read text = some (r'.within outer) := by
  unfold read at h ⊢
  generalize text.toList = cs at h ⊢
  induction cs generalizing r with
  | nil =>
      obtain rfl := Option.some.inj h
      rfl
  | cons c cs ih =>
      obtain ⟨mid, hmid, hcs⟩ := Option.bind_eq_some_iff.mp h
      exact Option.bind_eq_some_iff.mpr ⟨_, step_within hmid outer, ih hcs⟩

end Reader

theorem nest_within {awaited after : List Char} {text : String} (h : nest awaited text = some after)
    (outer : List Char) : nest (awaited ++ outer) text = some (after ++ outer) :=
  nest_eq_some.mpr (Reader.read_within (nest_eq_some.mp h) outer)

namespace Neutral

variable {text rest : String}

theorem empty : Neutral "" := fun _ => rfl

theorem append (h : Neutral text) (hrest : Neutral rest) :
    Neutral (text ++ rest) := fun awaited => by
  rw [Reader.read_append, h awaited, Option.bind_some, hrest awaited]

end Neutral

/-- Brackets and quotes. -/
def marks : List Char := ['(', ')', '[', ']', '\x7b', '\x7d', '"', '\x27']

/-- The text has no brackets and no quotes in it. -/
def Unmarked (text : String) : Prop := ∀ c ∈ text.toList, c ∉ marks

instance (text : String) : Decidable (Unmarked text) := List.decidableBAll _ _

theorem step_of_notMem_marks {c : Char} (h : c ∉ marks) (awaited : List Char) :
    (awaiting awaited).step c = some (awaiting awaited) := by
  simp only [marks, List.mem_cons, List.not_mem_nil, or_false, not_or] at h
  simp [Reader.step, isQuote, closing?, isClosing, h]

theorem foldlM_of_notMem_marks {cs : List Char} (h : ∀ c ∈ cs, c ∉ marks) (awaited : List Char) :
    cs.foldlM Reader.step (awaiting awaited) = some (awaiting awaited) := by
  induction cs with
  | nil => rfl
  | cons c cs ih =>
      obtain ⟨hc, hcs⟩ := List.forall_mem_cons.mp h
      rw [List.foldlM_cons, step_of_notMem_marks hc, Option.bind_eq_bind, Option.bind_some, ih hcs]

namespace Unmarked

variable {text rest : String}

theorem neutral (h : Unmarked text) : Neutral text :=
  fun awaited => foldlM_of_notMem_marks h awaited

theorem append (h : Unmarked text) (hrest : Unmarked rest) : Unmarked (text ++ rest) := by
  intro c hc
  rw [String.toList_append] at hc
  exact (List.mem_append.mp hc).elim (h c) (hrest c)

end Unmarked

theorem notMem_marks_of_isWordChar {c : Char} (h : isWordChar c = true) : c ∉ marks := by
  have hmarks : ∀ c ∈ marks, isWordChar c = false := by decide
  exact fun hmark => absurd h (by simp [hmarks c hmark])

theorem notMem_marks_of_numberTail {cs : List Char} {before : Char}
    (h : numberTail before cs = true) : ∀ c ∈ cs, c ∉ marks := by
  have hmarks : ∀ c ∈ marks, ∀ before, continuesNumber before c = false := by
    have hall : ∀ c ∈ marks, isWordChar c = false ∧ (c == '.') = false ∧ (c == '+') = false ∧
        (c == '-') = false := by decide
    intro c hc before
    simp [continuesNumber, hall c hc]
  induction cs generalizing before with
  | nil => simp
  | cons c cs ih =>
      simp only [numberTail, Bool.and_eq_true] at h
      refine List.forall_mem_cons.mpr ⟨fun hmark => ?_, ih h.2⟩
      simp [hmarks c hmark] at h

theorem unmarked_of_isNumber {text : String} (h : isNumber text = true) : Unmarked text := by
  unfold isNumber at h
  split at h
  case h_1 => simp at h
  case h_2 c cs hcs =>
    rw [Bool.and_eq_true] at h
    rw [Unmarked, hcs]
    exact List.forall_mem_cons.mpr ⟨notMem_marks_of_isWordChar (by simp [isWordChar, h.1]),
      notMem_marks_of_numberTail h.2⟩

theorem unmarked_repr (n : Nat) : Unmarked n.repr :=
  unmarked_of_isNumber (isNumeral_toString n).number

/-! Case conventions change letters only. A name without brackets and quotes therefore has none as
it is printed either; the tables of cases are looked through once for that. -/

/-- A character that a table maps to another one is mapped to a letter. -/
theorem mappedCode_eq_or_isWordStart {runs : List CaseRun}
    (h : ∀ run ∈ runs, isLetterRange (run.first + run.shift) (run.last + run.shift) = true)
    (c : Char) : Char.ofNat (mappedCode runs c.toNat) = c ∨
      isWordStart (Char.ofNat (mappedCode runs c.toNat)) = true := by
  unfold mappedCode
  split
  case h_1 run hfind =>
    have hcovers := List.find?_some hfind
    obtain ⟨hfirst, hlast⟩ := CodeRun.le_of_covers hcovers
    have hrun := h run (List.mem_of_find?_eq_some hfind)
    have hpos : 0 ≤ (run.first : Int) + run.shift := by
      have hrange := hrun
      simp only [isLetterRange, Bool.or_eq_true, decide_eq_true_eq] at hrange
      omega
    exact .inr (isWordStart_ofNat ((c.toNat : Int) + run.shift).toNat hrun (by omega) (by omega)).1
  case h_2 => exact .inl (Char.ofNat_toNat c)

theorem notMem_marks_of_mem_lowercase {c d : Char} (hc : c ∉ marks) (hd : d ∈ lowercase c) :
    d ∉ marks := by
  unfold lowercase at hd
  split_ifs at hd
  · have hall : ∀ d ∈ ['i', '\u0307'], d ∉ marks := by decide
    exact hall d hd
  · obtain rfl := List.mem_singleton.mp hd
    rcases mappedCode_eq_or_isWordStart isLetterRange_of_mem_lowerRuns c with heq | hword
    · rwa [heq]
    · exact notMem_marks_of_isWordChar (by simp [isWordChar, hword])

theorem notMem_marks_of_mem_uppercase {c d : Char} (hc : c ∉ marks) (hd : d ∈ uppercase c) :
    d ∉ marks := by
  unfold uppercase at hd
  split at hd
  case h_1 codes hlookup =>
    obtain ⟨before, after, hsplit, -⟩ := List.lookup_eq_some_iff.mp hlookup
    obtain ⟨code, hcode, rfl⟩ := List.mem_map.mp hd
    have hlarge :=
      (isLargeRange_of_mem_upperExpansions (c.toNat, codes) (by simp [hsplit])).2 code hcode
    have hword := (isWordStart_ofNat code (isLetterRange_of_isLargeRange hlarge)
      (Int.le_refl _) (Int.le_refl _)).1
    exact notMem_marks_of_isWordChar (by simp [isWordChar, hword])
  case h_2 =>
    have hrows : ∀ run ∈ upperRuns,
        isLetterRange (run.first + run.shift) (run.last + run.shift) = true := fun run hrun =>
      isLetterRange_of_isLargeRange (isLargeRange_of_mem_upperRuns run hrun)
    obtain rfl := List.mem_singleton.mp hd
    rcases mappedCode_eq_or_isWordStart hrows c with heq | hword
    · rwa [heq]
    · exact notMem_marks_of_isWordChar (by simp [isWordChar, hword])

theorem Unmarked.camelCase {name : String} (h : Unmarked name) : Unmarked (camelCase name) := by
  unfold Text.camelCase
  split
  case h_1 => decide
  case h_2 c rest hname =>
    rw [Unmarked, hname] at h
    obtain ⟨hc, hrest⟩ := List.forall_mem_cons.mp h
    rw [Unmarked, String.toList_ofList]
    exact List.forall_mem_append.mpr ⟨fun d hd => notMem_marks_of_mem_lowercase hc hd, hrest⟩

theorem notMem_marks_of_mem_upperSnakeTail {cs : List Char} (h : ∀ c ∈ cs, c ∉ marks) :
    ∀ before, ∀ d ∈ upperSnakeTail before cs, d ∉ marks := by
  induction cs with
  | nil => simp [upperSnakeTail]
  | cons c cs ih =>
      obtain ⟨hc, hcs⟩ := List.forall_mem_cons.mp h
      intro before
      rw [upperSnakeTail]
      refine List.forall_mem_append.mpr
        ⟨List.forall_mem_append.mpr ⟨fun d hd => ?_, fun d hd => ?_⟩,
        ih hcs c⟩
      · obtain rfl : d = '_' := by
          split_ifs at hd
          · exact List.mem_singleton.mp hd
          · cases hd
        decide
      · exact notMem_marks_of_mem_uppercase hc hd

theorem Unmarked.upperSnakeCase {name : String} (h : Unmarked name) :
    Unmarked (upperSnakeCase name) := by
  unfold Text.upperSnakeCase
  split
  case h_1 => decide
  case h_2 c rest hname =>
    rw [Unmarked, hname] at h
    obtain ⟨hc, hrest⟩ := List.forall_mem_cons.mp h
    rw [Unmarked, String.toList_ofList]
    exact List.forall_mem_append.mpr ⟨fun d hd => notMem_marks_of_mem_uppercase hc hd,
      notMem_marks_of_mem_upperSnakeTail hrest c⟩

theorem Unmarked.localName {name : String} (h : Unmarked name) (t : Target) :
    Unmarked (t.localName name) := by
  unfold Target.localName Keywords.escape
  split_ifs
  · exact h.camelCase.append (by decide)
  · exact h.camelCase

theorem Unmarked.constName {c : ClassDef} {name : String} (hc : Unmarked c.name)
    (h : Unmarked name) : Unmarked (CFamily.constName c name) :=
  (hc.append (by decide)).append h.upperSnakeCase

theorem Unmarked.functionName {owner name : String} (howner : Unmarked owner) (h : Unmarked name) :
    Unmarked (CFamily.functionName owner name) := (howner.append (by decide)).append h

/-- Whatever a resource is called. -/
theorem unmarked_resourceName (name : String) : Unmarked (CFamily.resourceName name) := by
  have hfront : Unmarked "CiResource_" := by decide
  refine hfront.append fun c hc => ?_
  rw [String.toList_ofList] at hc
  obtain ⟨d, -, rfl⟩ := List.mem_map.mp hc
  split_ifs with halphanum
  · have hmarks : ∀ c ∈ marks, c.isAlphanum = false := by decide
    exact fun hmark => absurd halphanum (by simp [hmarks d hmark])
  · decide

theorem foldlM_escapedChar (c : Char) (awaited : List Char) :
    (escapedChar c).foldlM Reader.step ⟨awaited, some ('"', false)⟩ =
      some ⟨awaited, some ('"', false)⟩ := by
  unfold escapedChar
  split_ifs with hquote hbackslash hnewline hreturn htab
  · rfl
  · rfl
  · rfl
  · rfl
  · rfl
  · simp [Reader.step, hquote, hbackslash, hnewline, hreturn]

/-- The literal of any text ends at its last quote, on its line. -/
theorem neutral_quoted (text : String) : Neutral (quoted text) := by
  have hinside : ∀ (cs : List Char) (awaited : List Char),
      (escaped cs).foldlM Reader.step ⟨awaited, some ('"', false)⟩ =
        some ⟨awaited, some ('"', false)⟩ := by
    intro cs awaited
    induction cs with
    | nil => rfl
    | cons c cs ih =>
        rw [escaped, List.flatMap_cons, List.foldlM_append, foldlM_escapedChar,
          Option.bind_eq_bind, Option.bind_some]
        exact ih
  intro awaited
  have hopen : (awaiting awaited).step '"' = some ⟨awaited, some ('"', false)⟩ := rfl
  rw [Reader.read, quoted, String.toList_ofList, List.cons_append, List.foldlM_cons, hopen,
    Option.bind_eq_bind, Option.bind_some, List.foldlM_append, hinside, Option.bind_eq_bind,
    Option.bind_some]
  rfl

end Emitter.Brackets

namespace Emitter.Layout

open Brackets

namespace Lexeme

/-- The lexeme neither opens nor closes a bracket. -/
def isFlat : Lexeme → Bool
  | quoted _ | gap => true
  | word text | supplied text _ | number text | symbol text => decide (Unmarked text)

theorem isFlat_word {text : String} (h : Unmarked text) : (word text).isFlat = true :=
  decide_eq_true h

@[simp] theorem isFlat_number (n : Nat) : (number n.repr).isFlat = true :=
  decide_eq_true (unmarked_repr n)

theorem neutral_text {l : Lexeme} (h : l.isFlat = true) : Neutral l.text := by
  cases l with
  | quoted text => exact neutral_quoted text
  | gap => exact Unmarked.neutral (by decide)
  | _ => exact (of_decide_eq_true h).neutral

end Lexeme

namespace Code

/-- The brackets to be closed behind the code. -/
def nest (awaited : List Char) (code : Code) : Option (List Char) :=
  code.foldlM (fun awaited l => Brackets.nest awaited l.text) awaited

/-- The code closes the brackets it opens and no others. -/
def Nested (code : Code) : Prop := ∀ awaited, code.nest awaited = some awaited

variable {code rest : Code} {l : Lexeme} {awaited after : List Char}

@[simp] theorem nest_nil : nest awaited [] = some awaited := rfl

theorem nest_cons :
    nest awaited (l :: code) = (Brackets.nest awaited l.text).bind (nest · code) := rfl

theorem nest_append : nest awaited (code ++ rest) = (code.nest awaited).bind (nest · rest) := by
  simp [nest, List.foldlM_append]

@[simp] theorem nest_flat (h : l.isFlat = true) : nest awaited (l :: code) = code.nest awaited := by
  rw [nest_cons, (Lexeme.neutral_text h).nest_eq, Option.bind_some]

@[simp] theorem nest_open : nest awaited (.symbol "(" :: code) = nest (')' :: awaited) code := rfl

@[simp] theorem nest_close : nest (')' :: awaited) (.symbol ")" :: code) = nest awaited code := rfl

@[simp] theorem nest_openSquare :
    nest awaited (.symbol "[" :: code) = nest (']' :: awaited) code := rfl

@[simp] theorem nest_closeSquare :
    nest (']' :: awaited) (.symbol "]" :: code) = nest awaited code := rfl

@[simp] theorem nest_openBrace :
    nest awaited (.symbol "\x7b" :: code) = nest ('\x7d' :: awaited) code := rfl

@[simp] theorem nest_closeBrace :
    nest ('\x7d' :: awaited) (.symbol "\x7d" :: code) = nest awaited code := rfl

/-- Code in front that is nested changes nothing. -/
theorem Nested.nest_append (h : code.Nested) : nest awaited (code ++ rest) = rest.nest awaited := by
  rw [Code.nest_append, h, Option.bind_some]

namespace Nested

theorem nil : Nested [] := fun _ => rfl

theorem append (h : code.Nested) (hrest : rest.Nested) : (code ++ rest).Nested := fun awaited => by
  rw [h.nest_append, hrest awaited]

theorem flat (h : l.isFlat = true) (hcode : code.Nested) : Nested (l :: code) := fun awaited => by
  rw [nest_flat h, hcode awaited]

theorem of_isFlat (h : ∀ l ∈ code, l.isFlat = true) : code.Nested := by
  induction code with
  | nil => exact nil
  | cons l code ih =>
      obtain ⟨hl, hcode⟩ := List.forall_mem_cons.mp h
      exact flat hl (ih hcode)

theorem parenthesized (h : code.Nested) : code.parenthesized.Nested := fun awaited => by
  rw [Code.parenthesized, List.cons_append, nest_open, h.nest_append, nest_close, nest_nil]

theorem operator {text : String} (h : Unmarked text) : (operator text).Nested :=
  of_isFlat (by simp [Code.operator, Lexeme.isFlat, h])

theorem commaSeparated {pieces : List Code} (h : ∀ piece ∈ pieces, piece.Nested) :
    (commaSeparated pieces).Nested := by
  induction pieces with
  | nil => exact nil
  | cons piece rest ih =>
      obtain ⟨hpiece, hrest⟩ := List.forall_mem_cons.mp h
      cases rest with
      | nil => simpa [Code.commaSeparated] using hpiece
      | cons next rest =>
          have hcomma : Code.comma.Nested := of_isFlat (by decide)
          simpa [Code.commaSeparated] using hpiece.append (hcomma.append (ih hrest))

end Nested

end Code

end Emitter.Layout
