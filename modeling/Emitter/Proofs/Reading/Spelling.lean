import Emitter.Proofs.Reading.Scanner
import Mathlib

/-!
# Printed code reads back as its lexemes

The text of a piece of code is cut into the tokens it was put together from when every lexeme is
spelled as a token of its kind and none runs into the next.
-/

namespace Emitter.Reading

theorem isDigit_iff (c : Char) : c.isDigit = true ↔ 48 ≤ c.toNat ∧ c.toNat ≤ 57 := by
  simp [Char.isDigit, UInt32.le_iff_toNat_le]

theorem isWordStart_iff (c : Char) : isWordStart c = true ↔
    (65 ≤ c.toNat ∧ c.toNat ≤ 90) ∨ (97 ≤ c.toNat ∧ c.toNat ≤ 122) ∨
      c.toNat = 95 ∨ 128 ≤ c.toNat := by
  have hunderscore : c = '_' ↔ c.toNat = 95 := Char.toNat_inj.symm
  simp [isWordStart, Char.isAlpha, Char.isUpper, Char.isLower, UInt32.le_iff_toNat_le,
    hunderscore, or_assoc]

theorem isWordStart_of_isDigit {c : Char} (h : c.isDigit = true) : isWordStart c = false := by
  rw [← Bool.not_eq_true, isWordStart_iff]
  rw [isDigit_iff] at h
  omega

theorem isDigit_of_isWordStart {c : Char} (h : isWordStart c = true) : c.isDigit = false := by
  rw [← Bool.not_eq_true]
  intro hdigit
  simp [isWordStart_of_isDigit hdigit] at h

theorem start_of_isWordStart {c : Char} (h : isWordStart c = true) :
    Mode.start c = some (.word [c]) := by
  have hspace : ¬(c = ' ' ∨ c = '\t' ∨ c = '\n') := by
    rintro (rfl | rfl | rfl) <;> revert h <;> decide
  simp [Mode.start, hspace, h]

theorem start_of_isDigit {c : Char} (h : c.isDigit = true) :
    Mode.start c = some (.number [c]) := by
  have hspace : ¬(c = ' ' ∨ c = '\t' ∨ c = '\n') := by
    rintro (rfl | rfl | rfl) <;> revert h <;> decide
  simp [Mode.start, hspace, isWordStart_of_isDigit h, h]

/-- A word of the target language, reserved or not. -/
def isWord (text : String) : Bool :=
  match text.toList with
  | [] => false
  | c :: cs => isWordStart c && cs.all isWordChar

theorem isWordStart_of_mem_head? {text : String} (h : isWord text = true) {c : Char}
    (hc : c ∈ text.toList.head?) : isWordStart c = true := by
  cases ht : text.toList with
  | nil => simp [ht] at hc
  | cons d ds =>
      obtain rfl : d = c := by simpa [ht] using hc
      have hd : isWordStart d = true ∧ ds.all isWordChar = true := by simpa [isWord, ht] using h
      exact hd.1

/-- A number as a compiler reads it. -/
def isNumber (text : String) : Bool :=
  match text.toList with
  | [] => false
  | c :: cs => c.isDigit && numberTail c cs

/-- The scanner is not inside a literal. -/
def Mode.Idle : Mode → Prop
  | opened _ | escaping _ => False
  | symbol read => read ∈ operators
  | _ => True

end Emitter.Reading

namespace Emitter.Layout

open Reading

namespace Lexeme

def token? : Lexeme → Option Token
  | word text | supplied text _ => some (.word text)
  | number text => some (.number text)
  | quoted contents => some (.quoted contents)
  | symbol text => some (.symbol text)
  | gap => none

/-- The mode of a scanner that has read the lexeme. -/
def pending : Lexeme → Mode
  | word text | supplied text _ => .word text.toList
  | number text => .number text.toList
  | quoted contents => .closed contents.toList
  | symbol text => .symbol text.toList
  | gap => .between

/-- The lexeme is spelled as a token of its kind. -/
def Spelled : Lexeme → Prop
  | word text | supplied text _ => isWord text = true
  | number text => isNumber text = true
  | symbol text => text.toList ∈ operators
  | quoted _ | gap => True

theorem idle_pending {l : Lexeme} (h : l.Spelled) : l.pending.Idle := by
  cases l with
  | symbol text => exact h
  | _ => trivial

@[simp] theorem settle_pending (l : Lexeme) : l.pending.settle = some l.token?.toList := by
  cases l <;> simp [pending, token?, Mode.settle]

theorem text_eq_cons {l : Lexeme} (h : l.Spelled) : ∃ c cs, l.text.toList = c :: cs := by
  cases l with
  | word text | supplied text _ =>
      cases ht : text.toList with
      | nil => simp [Spelled, isWord, ht] at h
      | cons c cs => exact ⟨c, cs, ht⟩
  | number text =>
      cases ht : text.toList with
      | nil => simp [Spelled, isNumber, ht] at h
      | cons c cs => exact ⟨c, cs, ht⟩
  | symbol text =>
      cases ht : text.toList with
      | nil =>
          have : ([] : List Char) ∈ operators := ht ▸ h
          simp [operators] at this
      | cons c cs => exact ⟨c, cs, ht⟩
  | quoted contents => exact ⟨'"', _, by simp [text, Text.quoted]; rfl⟩
  | gap => exact ⟨' ', [], rfl⟩

/-- Between tokens, the whole lexeme is read. -/
theorem scanFrom_text {l : Lexeme} (h : l.Spelled) (rest : List Char) :
    scanFrom .between (l.text.toList ++ rest) = scanFrom l.pending rest := by
  cases l with
  | word text | supplied text _ =>
      cases ht : text.toList with
      | nil => simp [Spelled, isWord, ht] at h
      | cons c cs =>
          obtain ⟨hc, hcs⟩ : isWordStart c = true ∧ cs.all isWordChar = true := by
            simpa [Spelled, isWord, ht] using h
          simp only [Lexeme.text, pending, ht, List.cons_append]
          rw [scanFrom_start (start_of_isWordStart hc),
            scanFrom_follow (Mode.follow_word hcs [c]) rest]
          rfl
  | number text =>
      cases ht : text.toList with
      | nil => simp [Spelled, isNumber, ht] at h
      | cons c cs =>
          obtain ⟨hc, hcs⟩ : c.isDigit = true ∧ numberTail c cs = true := by
            simpa [Spelled, isNumber, ht] using h
          simp only [Lexeme.text, pending, ht, List.cons_append]
          rw [scanFrom_start (start_of_isDigit hc),
            scanFrom_follow (Mode.follow_number hcs rfl) rest]
          rfl
  | quoted contents =>
      have hstart : Mode.start '"' = some (.opened []) := by decide
      simp only [Lexeme.text, Text.quoted, String.toList_ofList, pending]
      rw [List.cons_append, List.cons_append, scanFrom_start hstart,
        scanFrom_follow (Mode.follow_opened contents.toList []) rest]
      rfl
  | symbol text =>
      have hread : (text.toList.head?.bind Mode.start).bind (·.follow text.toList.tail) =
          some (.symbol text.toList) := Mode.follow_operator h
      cases ht : text.toList with
      | nil => simp [ht] at hread
      | cons c cs =>
          rw [ht, List.head?_cons, Option.bind_some, Option.bind_eq_some_iff] at hread
          obtain ⟨next, hc, hcs⟩ := hread
          have hcs : next.follow cs = some (.symbol (c :: cs)) := hcs
          simp only [Lexeme.text, pending, ht, List.cons_append]
          rw [scanFrom_start hc, scanFrom_follow hcs rest]
  | gap => exact scanFrom_start (by decide) rest

/-- The first lexeme does not run into the second one. -/
def Apart (a b : Lexeme) : Prop := ∀ c ∈ b.text.toList.head?, a.pending.extend c = none

end Lexeme

namespace Code

def tokens (code : Code) : List Token := code.filterMap Lexeme.token?

@[simp] theorem tokens_nil : tokens [] = [] := rfl

@[simp] theorem tokens_append (a b : Code) : tokens (a ++ b) = tokens a ++ tokens b := by
  simp [tokens]

@[simp] theorem tokens_word (text : String) (code : Code) :
    tokens (.word text :: code) = .word text :: tokens code := rfl

@[simp] theorem tokens_supplied (name : String) (supplier : Supplier) (code : Code) :
    tokens (.supplied name supplier :: code) = .word name :: tokens code := rfl

@[simp] theorem tokens_number (text : String) (code : Code) :
    tokens (.number text :: code) = .number text :: tokens code := rfl

@[simp] theorem tokens_quoted (contents : String) (code : Code) :
    tokens (.quoted contents :: code) = .quoted contents :: tokens code := rfl

@[simp] theorem tokens_symbol (text : String) (code : Code) :
    tokens (.symbol text :: code) = .symbol text :: tokens code := rfl

@[simp] theorem tokens_gap (code : Code) : tokens (.gap :: code) = tokens code := rfl

theorem toList_text (code : Code) : code.text.toList = code.flatMap (·.text.toList) := by
  simp [text, String.toList_join, List.flatMap_map]

@[simp] theorem text_append (a b : Code) : text (a ++ b) = text a ++ text b :=
  String.toList_inj.mp (by simp [toList_text])

/-- Code whose lexemes are spelled and kept apart is cut into their tokens, and so is what stands
in front of more text that does not run into it. -/
theorem scanFrom_text {code : Code} (hs : ∀ l ∈ code, l.Spelled)
    (hc : code.IsChain Lexeme.Apart) {rest : List Char}
    (hrest : ∀ l ∈ code.getLast?, ∀ c ∈ rest.head?, l.pending.extend c = none) :
    scanFrom .between (code.text.toList ++ rest) =
      (scanFrom .between rest).map (code.tokens ++ ·) := by
  induction code with
  | nil => simp [text, String.join]
  | cons l code ih =>
      obtain ⟨hl, hs⟩ := List.forall_mem_cons.mp hs
      have hnext : ∀ c ∈ ((Code.text code).toList ++ rest).head?, l.pending.extend c = none := by
        cases code with
        | nil => simpa [text, String.join] using hrest l (by simp)
        | cons b code =>
            obtain ⟨c, cs, hb⟩ := Lexeme.text_eq_cons (hs b (by simp))
            have hapart : Lexeme.Apart l b := (List.isChain_cons_cons.mp hc).1
            intro d hd
            refine hapart d ?_
            simpa [toList_text, hb] using hd
      have hrest' : ∀ b ∈ code.getLast?, ∀ c ∈ rest.head?, b.pending.extend c = none := by
        intro b hb
        refine hrest b ?_
        cases code with
        | nil => simp at hb
        | cons _ _ => simpa [List.getLast?_cons_cons] using hb
      have htext : (Code.text (l :: code)).toList = l.text.toList ++ (Code.text code).toList := by
        simp [toList_text]
      rw [htext, List.append_assoc, Lexeme.scanFrom_text hl,
        scanFrom_settle l.settle_pending hnext, ih hs (List.isChain_of_isChain_cons hc) hrest']
      cases scanFrom .between rest with
      | none => rfl
      | some ts => cases htok : l.token? <;> simp [tokens, htok]

theorem scan_text {code : Code} (hs : ∀ l ∈ code, l.Spelled)
    (hc : code.IsChain Lexeme.Apart) : scan code.text = some code.tokens := by
  have h : scanFrom .between (code.text.toList ++ []) =
      (scanFrom .between []).map (code.tokens ++ ·) := scanFrom_text hs hc (by simp)
  simpa [scan, scanFrom] using h

end Code

end Emitter.Layout
