import Emitter.Proofs.Reading.Spelling

/-!
# Tidy code

What holds of all printed code, also where a number runs into the name behind it: every lexeme is
spelled as a token, no word or number stands directly behind another, and brackets are closed in
the code that opens them. In strict code no lexeme runs into the next at all.
-/

namespace Emitter.Reading

/-- How many brackets are open behind a token. Nothing may close a bracket that is not open, end a
statement, or open a comment. -/
def Token.depthAfter (depth : Nat) : Token → Option Nat
  | .symbol s =>
    if s ∈ ["(", "[", "\x7b"] then some (depth + 1)
    else if s ∈ [")", "]", "\x7d"] then (if depth = 0 then none else some (depth - 1))
    else if s ∈ [";", "//", "/*"] then none
    else some depth
  | _ => some depth

/-- All brackets are closed where they were opened, at any depth. -/
def Balanced (ts : List Token) : Prop := ∀ depth, ts.foldlM Token.depthAfter depth = some depth

theorem Balanced.nil : Balanced [] := fun _ => rfl

theorem Balanced.append {as bs : List Token} (ha : Balanced as) (hb : Balanced bs) :
    Balanced (as ++ bs) := by
  intro depth
  simp [List.foldlM_append, ha depth, hb depth]

theorem Balanced.bracketed {ts : List Token} (h : Balanced ts) {opener closer : String}
    (ho : opener ∈ ["(", "[", "\x7b"]) (hc : closer ∈ [")", "]", "\x7d"]) :
    Balanced (.symbol opener :: (ts ++ [Token.symbol closer])) := by
  intro depth
  have hcloser : closer ∉ ["(", "[", "\x7b"] := by
    have hall : ∀ s ∈ [")", "]", "\x7d"], s ∉ ["(", "[", "\x7b"] := by decide
    exact hall closer hc
  have hopen : Token.depthAfter depth (.symbol opener) = some (depth + 1) := by
    simp only [Token.depthAfter, if_pos ho]
  have hclose : Token.depthAfter (depth + 1) (.symbol closer) = some depth := by
    simp only [Token.depthAfter, if_neg hcloser, if_pos hc]
    simp
  simp [List.foldlM_append, hopen, h (depth + 1), hclose]

/-- The characters of brackets, commas, semicolons and spaces. -/
def separateChars : List Char := ['(', ')', '[', ']', '\x7b', '\x7d', ',', ';', ' ', '\n', '\t']

theorem Mode.Idle.extend_separateChar {m : Mode} (h : m.Idle) {c : Char}
    (hc : c ∈ separateChars) : m.extend c = none := by
  have hword : isWordChar c = false := by
    have hall : ∀ c ∈ separateChars, isWordChar c = false := by decide
    exact hall c hc
  cases m with
  | word read => simp [extend, hword]
  | number read =>
      have hnumber : ∀ before, continuesNumber before c = false := by
        have hpoint : ∀ c ∈ separateChars, (c == '.') = false ∧ (c == '+') = false ∧
            (c == '-') = false := by decide
        intro before
        simp [continuesNumber, hword, hpoint c hc]
      cases hlast : read.getLast? <;> simp [extend, hlast, hnumber]
  | symbol read =>
      have hdigit : ∀ c ∈ separateChars, c.isDigit = false := by decide
      have hne : ∀ op ∈ operators, op ≠ [] := by decide
      have hlast : ∀ op ∈ operators, op.length = 1 ∨ ∀ c ∈ op.getLast?, c ∉ separateChars := by
        decide
      have hop : read ++ [c] ∉ operators := fun hmem => by
        rcases hlast _ hmem with hlength | hlast
        · exact hne read h (by simpa using hlength)
        · exact hlast c (by simp) hc
      simp [extend, hdigit c hc, hop]
  | between | closed => rfl
  | opened | escaping => exact h.elim

theorem Balanced.singleton {token : Token} (h : ∀ depth, token.depthAfter depth = some depth) :
    Balanced [token] := by
  intro depth
  simp [h depth]

end Emitter.Reading

namespace Emitter.Layout

open Reading

namespace Lexeme

/-- Words and numbers, which run into each other. -/
def isWordlike : Lexeme → Bool
  | word _ | supplied .. | number _ => true
  | _ => false

/-- Two lexemes may follow each other. In strict code the first one does not run into the second;
elsewhere a word or number may not stand behind another, and a slash has a space behind it. -/
structure Joint (strict : Bool) (a b : Lexeme) : Prop where
  apart : strict = true → a.Apart b
  wordlike : a.isWordlike = true → b.isWordlike = false
  slash : a = symbol "/" ∨ a = symbol "/=" → b = gap

/-- Brackets, commas, semicolons and spaces, which never run into anything. -/
def isSeparate : Lexeme → Bool
  | symbol s => s ∈ ["(", ")", "[", "]", "\x7b", "\x7d", ",", ";"]
  | gap => true
  | _ => false

theorem extend_separateChar {l : Lexeme} (hl : l.Spelled) {c : Char} (hc : c ∈ separateChars) :
    l.pending.extend c = none := (idle_pending hl).extend_separateChar hc

theorem extend_pending_of_isSeparate {l : Lexeme} (h : l.isSeparate = true) (c : Char) :
    l.pending.extend c = none := by
  cases l with
  | symbol s =>
      have hall : ∀ s ∈ ["(", ")", "[", "]", "\x7b", "\x7d", ",", ";"],
          s.toList ≠ ['.'] ∧ s.toList.length = 1 ∧
            ∀ op ∈ operators, op.length = 2 → op.take 1 ≠ s.toList := by decide
      obtain ⟨hpoint, hlength, hop⟩ := hall s (by simpa [isSeparate] using h)
      have hnot : s.toList ++ [c] ∉ operators := fun hmem =>
        hop _ hmem (by simp [hlength]) (by simp [hlength])
      simp [pending, Mode.extend, hpoint, hnot]
  | gap => rfl
  | _ => simp [isSeparate] at h

theorem mem_separateChars_of_isSeparate {l : Lexeme} (h : l.isSeparate = true) {c : Char}
    (hc : c ∈ l.text.toList.head?) : c ∈ separateChars := by
  cases l with
  | symbol s =>
      have hall : ∀ s ∈ ["(", ")", "[", "]", "\x7b", "\x7d", ",", ";"],
          ∀ c ∈ s.toList.head?, c ∈ separateChars := by decide
      exact hall s (by simpa [isSeparate] using h) c hc
  | gap =>
      have : c = ' ' := by simpa [text] using hc.symm
      simp [this, separateChars]
  | _ => simp [isSeparate] at h

namespace Joint

variable {strict : Bool} {a b : Lexeme}

theorem of_separate_left (h : a.isSeparate = true) (b : Lexeme) : Joint strict a b where
  apart _ c _ := extend_pending_of_isSeparate h c
  wordlike hword := by cases a <;> simp_all [isSeparate, isWordlike]
  slash hslash := by rcases hslash with rfl | rfl <;> simp [isSeparate] at h

theorem of_separate_right (ha : a.Spelled) (h : b.isSeparate = true)
    (hslash : a = symbol "/" ∨ a = symbol "/=" → b = gap) : Joint strict a b where
  apart _ _ hc := extend_separateChar ha (mem_separateChars_of_isSeparate h hc)
  wordlike _ := by cases b <;> simp_all [isSeparate, isWordlike]
  slash := hslash

end Joint

end Lexeme

open Lexeme

namespace Code

/-- Code of spelled lexemes that may follow each other, with all brackets closed. -/
structure Tidy (strict : Bool) (code : Code) : Prop where
  spelled : ∀ l ∈ code, l.Spelled
  joint : code.IsChain (Joint strict)
  balanced : Balanced code.tokens

namespace Tidy

variable {strict : Bool} {a b code : Code} {l : Lexeme}

theorem nil : Tidy strict [] := ⟨by simp, .nil, .nil⟩

theorem append (ha : Tidy strict a) (hb : Tidy strict b)
    (hjoint : ∀ x ∈ a.getLast?, ∀ y ∈ b.head?, Joint strict x y) : Tidy strict (a ++ b) where
  spelled := by
    simp only [List.mem_append]
    rintro l (h | h)
    · exact ha.spelled l h
    · exact hb.spelled l h
  joint := List.isChain_append.mpr ⟨ha.joint, hb.joint, hjoint⟩
  balanced := by
    rw [tokens_append]
    exact ha.balanced.append hb.balanced

theorem singleton (hl : l.Spelled) (hdepth : Balanced (tokens [l])) : Tidy strict [l] :=
  ⟨by simpa using hl, .singleton l, hdepth⟩

theorem gap : Tidy strict [.gap] := singleton trivial .nil

theorem word {text : String} (h : isWord text = true) : Tidy strict [.word text] :=
  singleton h (.singleton fun _ => rfl)

theorem supplied {name : String} (h : isWord name = true) (supplier : Supplier) :
    Tidy strict [.supplied name supplier] :=
  singleton h (.singleton fun _ => rfl)

theorem number {text : String} (h : isNumber text = true) : Tidy strict [.number text] :=
  singleton h (.singleton fun _ => rfl)

theorem quoted (contents : String) : Tidy strict [.quoted contents] :=
  singleton trivial (.singleton fun _ => rfl)

/-- A symbol that neither brackets nor ends anything. -/
theorem symbol {s : String} (h : s.toList ∈ operators)
    (hplain : s ∉ ["(", "[", "\x7b", ")", "]", "\x7d", ";", "//", "/*"]) :
    Tidy strict [.symbol s] := by
  refine singleton h (.singleton fun depth => ?_)
  simp only [List.mem_cons, List.not_mem_nil, or_false, not_or] at hplain
  simp [Token.depthAfter, hplain]

/-- Between brackets. -/
theorem bracketed {opener closer : String} (h : Tidy strict code)
    (ho : opener ∈ ["(", "[", "\x7b"]) (hc : closer ∈ [")", "]", "\x7d"])
    (hlast : ∀ x ∈ code.getLast?, x ≠ .symbol "/" ∧ x ≠ .symbol "/=") :
    Tidy strict (.symbol opener :: (code ++ [Lexeme.symbol closer])) where
  spelled := by
    have hopen : ∀ s ∈ ["(", "[", "\x7b"], s.toList ∈ operators := by decide
    have hclose : ∀ s ∈ [")", "]", "\x7d"], s.toList ∈ operators := by decide
    simp only [List.mem_cons, List.mem_append, List.not_mem_nil, or_false]
    rintro l (rfl | h' | rfl)
    · exact hopen _ ho
    · exact h.spelled l h'
    · exact hclose _ hc
  joint := by
    have hopen : ∀ s ∈ ["(", "[", "\x7b"], (Lexeme.symbol s).isSeparate = true := by decide
    have hclose : ∀ s ∈ [")", "]", "\x7d"], (Lexeme.symbol s).isSeparate = true := by decide
    refine List.isChain_cons.mpr ⟨fun y _ => .of_separate_left (hopen _ ho) y, ?_⟩
    refine List.isChain_append.mpr ⟨h.joint, .singleton _, fun x hx y hy => ?_⟩
    obtain rfl : y = .symbol closer := by simpa using hy.symm
    refine .of_separate_right (h.spelled x (List.mem_of_getLast? hx)) (hclose _ hc) fun hs => ?_
    obtain ⟨hne, hne'⟩ := hlast x hx
    rcases hs with hs | hs
    · exact absurd hs hne
    · exact absurd hs hne'
  balanced := by
    simpa using h.balanced.bracketed ho hc

end Tidy

end Code

end Emitter.Layout
