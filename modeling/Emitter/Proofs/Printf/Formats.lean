import Emitter.CFamily.Printf
import Emitter.Proofs.Reading.Numerals

/-!
# How a format is read

The conversion specifications in the format of a `printf`, as the library takes them out of it:
flags, a width, a precision, a length modifier and a letter. A format that is printed holds exactly
the conversions it was put together from, and none that a text between them would make.
-/

namespace Emitter.CFamily

open Program Reading

/-- A conversion specification, its numbers by their digits. -/
structure Directive where
  flags : List Char
  width : List Char
  precision : Option (List Char)
  modifier : List Char
  letter : Char
  deriving DecidableEq

/-- The part of a conversion specification that was read last. -/
inductive Directive.Part
  | flags
  | width
  | precision
  | modifier
  deriving DecidableEq

/-- A conversion specification up to its letter. -/
structure Opening where
  part : Directive.Part
  flags : List Char
  width : List Char
  precision : Option (List Char)
  modifier : List Char
  deriving DecidableEq

namespace Opening

/-- Behind the percent sign. -/
def start : Opening := ⟨.flags, [], [], none, []⟩

/-- The specification with one more character, if the character is not its letter. A zero is a flag
up to the first digit of the width. -/
def extend (o : Opening) (c : Char) : Option Opening :=
  if o.part = .flags ∧ c ∈ ['-', '+', ' ', '#', '0'] then some { o with flags := o.flags ++ [c] }
  else if (o.part = .flags ∨ o.part = .width) ∧ c.isDigit then
    some { o with part := .width, width := o.width ++ [c] }
  else if (o.part = .flags ∨ o.part = .width) ∧ c = '.' then
    some { o with part := .precision, precision := some [] }
  else if o.part = .precision ∧ c.isDigit then
    some { o with precision := o.precision.map (· ++ [c]) }
  else if c ∈ ['h', 'l', 'j', 'z', 't', 'L'] then
    some { o with part := .modifier, modifier := o.modifier ++ [c] }
  else none

def close (o : Opening) (letter : Char) : Directive :=
  ⟨o.flags, o.width, o.precision, o.modifier, letter⟩

end Opening

/-- The conversion specifications that take a value, from between two of them or from within one.
A percent sign right behind another stands for itself. -/
def directivesFrom : Option Opening → List Char → Option (List Directive)
  | none, [] => some []
  | some _, [] => none
  | none, c :: cs => directivesFrom (if c = '%' then some .start else none) cs
  | some o, c :: cs =>
    match o.extend c with
    | some next => directivesFrom (some next) cs
    | none =>
      if o = .start ∧ c = '%' then directivesFrom none cs
      else (directivesFrom none cs).map (o.close c :: ·)

/-- The conversion specifications of a format, if every one of them is complete. -/
def directives (format : String) : Option (List Directive) := directivesFrom none format.toList

/-- No text makes a conversion. -/
theorem directivesFrom_formatText (text : String) (rest : List Char) :
    directivesFrom none ((formatText text).toList ++ rest) = directivesFrom none rest := by
  have hpercent : Opening.start.extend '%' = none := by decide
  have hchars : ∀ cs : List Char,
      directivesFrom none ((cs.flatMap fun c => if c = '%' then ['%', '%'] else [c]) ++ rest) =
        directivesFrom none rest := by
    intro cs
    induction cs with
    | nil => rfl
    | cons c cs ih =>
        by_cases hc : c = '%'
        · simpa [hc, directivesFrom, hpercent] using ih
        · simpa [hc, directivesFrom] using ih
  simpa [formatText] using hchars text.toList

namespace Opening

/-- The specification with more characters. -/
def follow (o : Opening) (cs : List Char) : Option Opening := cs.foldlM extend o

theorem follow_append {o next : Opening} {cs : List Char} (h : o.follow cs = some next)
    (ds : List Char) : o.follow (cs ++ ds) = next.follow ds := by
  rw [follow, List.foldlM_append]
  exact congrArg (· >>= _) h

theorem directivesFrom_follow {o next : Opening} {cs : List Char} (h : o.follow cs = some next)
    (rest : List Char) :
    directivesFrom (some o) (cs ++ rest) = directivesFrom (some next) rest := by
  induction cs generalizing o with
  | nil =>
      obtain rfl := Option.some.inj h
      rfl
  | cons c cs ih =>
      rw [follow, List.foldlM_cons] at h
      obtain ⟨after, hc, hcs⟩ := Option.bind_eq_some_iff.mp h
      simpa [directivesFrom, hc] using ih hcs

theorem follow_width {cs : List Char} (h : ∀ c ∈ cs, c.isDigit = true) {o : Opening}
    (ho : o.part = .width) : o.follow cs = some { o with width := o.width ++ cs } := by
  induction cs generalizing o with
  | nil => simp [follow]
  | cons c cs ih =>
      obtain ⟨hc, hcs⟩ := List.forall_mem_cons.mp h
      have hextend : o.extend c = some { o with width := o.width ++ [c] } := by
        cases o
        simp_all [extend]
      have hnext := ih hcs (o := { o with width := o.width ++ [c] }) ho
      simpa [follow, hextend] using hnext

theorem follow_precision {cs digits : List Char} (h : ∀ c ∈ cs, c.isDigit = true) {o : Opening}
    (ho : o.part = .precision) (hdigits : o.precision = some digits) :
    o.follow cs = some { o with precision := some (digits ++ cs) } := by
  induction cs generalizing o digits with
  | nil => cases o; simp_all [follow]
  | cons c cs ih =>
      obtain ⟨hc, hcs⟩ := List.forall_mem_cons.mp h
      have hextend : o.extend c = some { o with precision := some (digits ++ [c]) } := by
        cases o
        simp_all [extend]
      have hnext := ih hcs (o := { o with precision := some (digits ++ [c]) }) ho rfl
      simpa [follow, hextend] using hnext

end Opening

namespace Conversion

/-- The flag that the sign of a width makes: a width below zero aligns to the left, and the width
zero is no width at all. -/
def flags (c : Conversion) : List Char :=
  c.width.elim [] fun n => if n < 0 then ['-'] else if n = 0 then ['0'] else []

def digits (c : Conversion) : List Char :=
  c.width.elim [] fun n => if n = 0 then [] else Nat.toDigits 10 n.toInt.natAbs

/-- The conversion specification that is read from a conversion. -/
def directive (c : Conversion) (modifier : List Char) (letter : Char) : Directive :=
  ⟨c.flags, c.digits, c.precision.map fun n => Nat.toDigits 10 n.toNat, modifier, letter⟩

@[simp] theorem directive_modifier (c : Conversion) (modifier : List Char) (letter : Char) :
    (c.directive modifier letter).modifier = modifier := rfl

@[simp] theorem directive_letter (c : Conversion) (modifier : List Char) (letter : Char) :
    (c.directive modifier letter).letter = letter := rfl

/-- The width of a conversion as it is printed. -/
def widthText (c : Conversion) : String := c.width.elim "" fun n => toString n.toInt

/-- The precision of a conversion as it is printed. -/
def precisionText (c : Conversion) : String := c.precision.elim "" fun n => "." ++ toString n.toNat

theorem toList_text (c : Conversion) :
    c.text.toList =
      '%' :: (c.widthText.toList ++ (c.precisionText.toList ++ c.letters.toList)) := by
  simp [text, widthText, precisionText, List.append_assoc]

/-- The digits of a positive width behind the flags. -/
theorem follow_positive {n : ℕ} (hn : n ≠ 0) {o : Opening}
    (ho : o.part = .flags ∧ o.width = []) :
    o.follow (Nat.toDigits 10 n) = some { o with part := .width, width := Nat.toDigits 10 n } := by
  have hall : ∀ c ∈ Nat.toDigits 10 n, c.isDigit = true := fun c hc =>
    Nat.isDigit_of_mem_toDigits (by decide) (by decide) hc
  obtain ⟨c, cs, hcs, hzero⟩ := Reading.exists_toDigits_eq_cons hn
  rw [hcs] at hall ⊢
  obtain ⟨hc, hdigits⟩ := List.forall_mem_cons.mp hall
  have hflag : c ∉ ['-', '+', ' ', '#', '0'] := by
    have hnot : ∀ d ∈ ['-', '+', ' ', '#'], d.isDigit = false := by decide
    intro hmem
    rcases List.mem_append.mp (show c ∈ ['-', '+', ' ', '#'] ++ ['0'] from hmem) with h | h
    · simp [hnot c h] at hc
    · exact hzero (List.mem_singleton.mp h)
  have hextend : o.extend c = some { o with part := .width, width := [c] } := by
    simp [Opening.extend, hflag, hc, ho]
  have hrest := Opening.follow_width hdigits (o := { o with part := .width, width := [c] }) rfl
  simpa [Opening.follow, hextend] using hrest

/-- The width is read as the flag its sign makes and the digits behind it. -/
theorem follow_widthText (c : Conversion) :
    ∃ part, (part = .flags ∨ part = .width) ∧
      Opening.start.follow c.widthText.toList = some ⟨part, c.flags, c.digits, none, []⟩ := by
  cases hw : c.width with
  | none =>
      exact ⟨.flags, .inl rfl, by
        simp [widthText, flags, digits, hw, Opening.follow, Opening.start]⟩
  | some n =>
      by_cases hzero : n = 0
      · subst hzero
        refine ⟨.flags, .inl rfl, ?_⟩
        simp only [widthText, flags, digits, hw]
        decide
      · have hvalue : n.toInt ≠ 0 := fun h => hzero (Int32.toInt_inj.mp h)
        refine ⟨.width, .inr rfl, ?_⟩
        cases hn : n.toInt with
        | ofNat m =>
            have hm : m ≠ 0 := by
              rintro rfl
              exact hvalue hn
            have hsign : ¬n < 0 := by simp [Int32.lt_iff_toInt_lt, hn]
            have htext : c.widthText.toList = Nat.toDigits 10 m := by
              simp [widthText, hw, hn, toString, Int.repr]
            rw [htext, follow_positive hm ⟨rfl, rfl⟩]
            simp [flags, digits, hw, hn, hzero, hsign, Opening.start]
        | negSucc m =>
            have hsign : n < 0 := by simp [Int32.lt_iff_toInt_lt, hn, Int.negSucc_lt_zero]
            have htext : c.widthText.toList = ['-'] ++ Nat.toDigits 10 (m + 1) := by
              simp [widthText, hw, hn, toString, Int.repr]
            have hflag :
                Opening.start.follow ['-'] = some { Opening.start with flags := ['-'] } := by
              decide
            rw [htext, Opening.follow_append hflag, follow_positive m.succ_ne_zero ⟨rfl, rfl⟩]
            simp [flags, digits, hw, hn, hzero, hsign, Opening.start]

theorem follow_precisionText (c : Conversion) {o : Opening}
    (ho : (o.part = .flags ∨ o.part = .width) ∧ o.precision = none) :
    ∃ part, o.follow c.precisionText.toList =
      some { o with part, precision := c.precision.map fun n => Nat.toDigits 10 n.toNat } := by
  cases hp : c.precision with
  | none =>
      refine ⟨o.part, ?_⟩
      cases o
      simp_all [precisionText, Opening.follow]
  | some n =>
      have hall : ∀ c ∈ Nat.toDigits 10 n.toNat, c.isDigit = true := fun c hc =>
        Nat.isDigit_of_mem_toDigits (by decide) (by decide) hc
      have htext : c.precisionText.toList = ['.'] ++ Nat.toDigits 10 n.toNat := by
        simp [precisionText, hp]
      have hpoint : o.follow ['.'] = some { o with part := .precision, precision := some [] } := by
        have hdigit : ('.').isDigit = false := by decide
        simp [Opening.follow, Opening.extend, ho.1, hdigit]
      refine ⟨.precision, ?_⟩
      rw [htext, Opening.follow_append hpoint, Opening.follow_precision hall rfl rfl]
      simp

/-- The letters that conversions are printed with, each behind its length modifier. -/
def specifiers : List (List Char × Char) :=
  [([], 'x'), ([], 'X'), ([], 'e'), ([], 'E'), ([], 'g'), ([], 'G'), ([], 'f'), ([], 'd'),
    ([], 's'),
    (['l', 'l'], 'd')]

/-- The letter ends the specification, behind the modifier it is printed with. -/
theorem follow_modifier {modifier : List Char} {letter : Char} (h : (modifier, letter) ∈ specifiers)
    {o : Opening} (ho : o.modifier = []) :
    ∃ part, o.follow modifier = some { o with part, modifier } ∧
      Opening.extend { o with part, modifier } letter = none := by
  have hplain : ∀ s ∈ specifiers, s.2 ∉ ['-', '+', ' ', '#', '0'] ∧ s.2.isDigit = false ∧
      s.2 ≠ '.' ∧ s.2 ∉ ['h', 'l', 'j', 'z', 't', 'L'] := by decide
  have hend : ∀ next : Opening, next.extend letter = none := by
    obtain ⟨hflag, hdigit, hpoint, hmodifier⟩ := hplain _ h
    intro next
    simp only [Opening.extend, hflag, hdigit, hpoint, hmodifier, and_false, Bool.false_eq_true,
      if_false]
  have hmodifiers : ∀ s ∈ specifiers, s.1 = [] ∨ s.1 = ['l', 'l'] := by decide
  rcases hmodifiers _ h with rfl | rfl
  · refine ⟨o.part, ?_, hend _⟩
    cases o
    simp_all [Opening.follow]
  · have hdigit : ('l').isDigit = false := by decide
    refine ⟨.modifier, ?_, hend _⟩
    simp [Opening.follow, Opening.extend, hdigit, ho]

/-- A printed conversion is a percent sign, the characters of one specification, and its letter. -/
theorem exists_follow (c : Conversion) {modifier : List Char} {letter : Char}
    (h : (modifier, letter) ∈ specifiers) (hletters : c.letters.toList = modifier ++ [letter]) :
    ∃ cs o, c.text.toList = '%' :: (cs ++ [letter]) ∧ letter ≠ '%' ∧
      Opening.start.follow cs = some o ∧ o.extend letter = none ∧
        o.close letter = c.directive modifier letter := by
  obtain ⟨part, hpart, hwidth⟩ := c.follow_widthText
  obtain ⟨part', hprecision⟩ := c.follow_precisionText
    (o := ⟨part, c.flags, c.digits, none, []⟩) ⟨hpart, rfl⟩
  obtain ⟨part'', hmodifier, hletter⟩ := follow_modifier h
    (o := ⟨part', c.flags, c.digits, c.precision.map fun n => Nat.toDigits 10 n.toNat, []⟩) rfl
  have hnumbers := (Opening.follow_append hwidth (c.precisionText.toList ++ modifier)).trans
    ((Opening.follow_append hprecision modifier).trans hmodifier)
  have hpercent : ∀ s ∈ specifiers, s.2 ≠ '%' := by decide
  have htext : c.text.toList =
      '%' :: ((c.widthText.toList ++ (c.precisionText.toList ++ modifier)) ++ [letter]) := by
    simp [toList_text, hletters]
  exact ⟨_, _, htext, hpercent _ h, hnumbers, hletter, rfl⟩

/-- A printed conversion is read as one specification, whatever follows. -/
theorem directivesFrom_text (c : Conversion) {modifier : List Char} {letter : Char}
    (h : (modifier, letter) ∈ specifiers) (hletters : c.letters.toList = modifier ++ [letter])
    (rest : List Char) :
    directivesFrom none (c.text.toList ++ rest) =
      (directivesFrom none rest).map (c.directive modifier letter :: ·) := by
  obtain ⟨cs, o, htext, hpercent, hfollow, hletter, hclose⟩ := c.exists_follow h hletters
  have hsplit : c.text.toList ++ rest = '%' :: (cs ++ letter :: rest) := by simp [htext]
  rw [hsplit, directivesFrom, if_pos rfl, Opening.directivesFrom_follow hfollow, directivesFrom,
    hletter]
  simp [hpercent, hclose]

end Conversion

end Emitter.CFamily
