import Emitter.Layout.Lexeme
import Emitter.Proofs.Reading.Scanner
import Mathlib

/-!
# Declarators of C

How a declaration in C is read: from the declared name outwards. Behind the name stand the lengths
of arrays, in front of it the stars of pointers, and what is behind comes first up to a closing
parenthesis. The words that are left over in front are the type that the declaration starts with.
-/

namespace Emitter.Reading

/-- The types of C, except those of functions. A type by its name keeps all words that spell it. -/
inductive CType
  | named (words : List String)
  | pointer (qualifiers : List String) (target : CType)
  | array (length : Nat) (element : CType)
  deriving DecidableEq

namespace CType

/-- An array is a pointer to its first element wherever it is a value. -/
def decayed : CType → CType
  | array _ element => pointer [] element
  | type => type

/-- The type with words in front of those that spell it. -/
def qualified (words : List String) : CType → CType
  | named spelling => named (words ++ spelling)
  | pointer qualifiers target => pointer qualifiers (target.qualified words)
  | array length element => array length (element.qualified words)

end CType

/-- What stands in front of a name, the nearest first, and what stands behind it declare the name
with the given type. -/
inductive Declarator : List Token → List Token → CType → Prop
  | base (words : List String) (h : words ≠ []) :
      Declarator (words.map .word) [] (.named words.reverse)
  | pointer {left right : List Token} {target : CType} (qualifiers : List String)
      (hright : ∀ t ∈ right.head?, t = .symbol ")") (h : Declarator left right target) :
      Declarator (qualifiers.map .word ++ .symbol "*" :: left) right
        (.pointer qualifiers.reverse target)
  | array {left right : List Token} {element : CType} (length : Nat)
      (h : Declarator left right element) :
      Declarator left (.symbol "[" :: .number (toString length) :: .symbol "]" :: right)
        (.array length element)
  | group {left right : List Token} {type : CType} (h : Declarator left right type) :
      Declarator (.symbol "(" :: left) (.symbol ")" :: right) type

/-- A list is cut at the first of its members that is the given one in one way only. -/
theorem split_unique {α : Type} {a : α} {xs xs' ys ys' : List α} (h : a ∉ xs) (h' : a ∉ xs')
    (heq : xs ++ a :: ys = xs' ++ a :: ys') : xs = xs' ∧ ys = ys' := by
  induction xs generalizing xs' with
  | nil =>
      cases xs' with
      | nil => exact ⟨rfl, (List.cons.inj heq).2⟩
      | cons x' xs' => exact absurd (List.cons.inj heq).1 (List.ne_of_not_mem_cons h')
  | cons x xs ih =>
      cases xs' with
      | nil => exact absurd (List.cons.inj heq).1.symm (List.ne_of_not_mem_cons h)
      | cons x' xs' =>
          obtain ⟨rfl, hrest⟩ := List.cons.inj heq
          obtain ⟨rfl, hys⟩ :=
            ih (List.not_mem_of_not_mem_cons h) (List.not_mem_of_not_mem_cons h') hrest
          exact ⟨rfl, hys⟩

namespace Declarator

variable {left right : List Token} {type type' : CType}

/-- No word stands behind the name. -/
theorem word_notMem (h : Declarator left right type) (w : String) : .word w ∉ right := by
  induction h with
  | base => simp
  | pointer qualifiers hright h ih => exact ih
  | array length h ih => simpa using ih
  | group h ih => simpa using ih

theorem star_notMem_words (words : List String) : .symbol "*" ∉ words.map Token.word := by simp

theorem words_injective : Function.Injective (List.map Token.word) :=
  List.map_injective_iff.mpr fun _ _ => Token.word.inj

theorem of_words {words : List String} (h : Declarator (words.map .word) [] type) :
    type = .named words.reverse := by
  generalize hleft : words.map Token.word = left at h
  cases h with
  | base words' hne => rw [words_injective hleft]
  | pointer qualifiers hright h =>
      exact absurd (show .symbol "*" ∈ words.map Token.word by simp [hleft])
        (star_notMem_words words)

theorem of_star (qualifiers : List String) (hright : ∀ t ∈ right.head?, t = .symbol ")")
    (h : Declarator (qualifiers.map Token.word ++ .symbol "*" :: left) right type) :
    ∃ target, type = .pointer qualifiers.reverse target ∧ Declarator left right target := by
  generalize hfront : qualifiers.map Token.word ++ .symbol "*" :: left = front at h
  cases h with
  | base words hne =>
      exact absurd (show .symbol "*" ∈ words.map Token.word by simp [← hfront])
        (star_notMem_words words)
  | pointer qualifiers' hright' h =>
      obtain ⟨hwords, rfl⟩ := split_unique (star_notMem_words _) (star_notMem_words _) hfront
      obtain rfl := words_injective hwords
      exact ⟨_, rfl, h⟩
  | array length h => simpa using hright _ rfl
  | group h => cases qualifiers <;> simp at hfront

theorem of_length {length : Nat}
    (h : Declarator left (.symbol "[" :: .number (toString length) :: .symbol "]" :: right) type) :
    ∃ element, type = .array length element ∧ Declarator left right element := by
  generalize hright : Token.symbol "[" :: .number (toString length) :: .symbol "]" :: right = behind
    at h
  cases h with
  | base words hne => cases hright
  | pointer qualifiers hclosed h =>
      subst hright
      simpa using hclosed _ rfl
  | array length' h =>
      simp only [List.cons.injEq, Token.number.injEq, true_and] at hright
      obtain ⟨hlength, rfl⟩ := hright
      obtain rfl := Nat.repr_injective hlength
      exact ⟨_, rfl, h⟩
  | group h => simp at hright

theorem of_parenthesis (h : Declarator (.symbol "(" :: left) (.symbol ")" :: right) type) :
    Declarator left right type := by
  generalize hleft : Token.symbol "(" :: left = front at h
  generalize hright : Token.symbol ")" :: right = behind at h
  cases h with
  | base words hne => cases hright
  | pointer qualifiers hclosed h => cases qualifiers <;> simp at hleft
  | array length h => simp at hright
  | group h =>
      obtain rfl := (List.cons.inj hleft).2
      obtain rfl := (List.cons.inj hright).2
      exact h

theorem qualified (words : List String) (h : Declarator left right type) :
    Declarator (left ++ (words.map Token.word).reverse) right (type.qualified words) := by
  induction h with
  | base spelling hne =>
      have hbase := Declarator.base (spelling ++ words.reverse) (by simp [hne])
      simpa [CType.qualified] using hbase
  | pointer qualifiers hright h ih =>
      simpa [CType.qualified] using ih.pointer qualifiers hright
  | array length h ih => exact .array length ih
  | group h ih => exact .group ih

/-- A declared name has one type. -/
theorem unique (h : Declarator left right type) (h' : Declarator left right type') :
    type = type' := by
  induction h generalizing type' with
  | base words hne => exact (of_words h').symm
  | pointer qualifiers hright h ih =>
      obtain ⟨target, rfl, htarget⟩ := of_star qualifiers hright h'
      rw [ih htarget]
  | array length h ih =>
      obtain ⟨element, rfl, helement⟩ := of_length h'
      rw [ih helement]
  | group h ih => exact ih (of_parenthesis h')

end Declarator

/-- The tokens declare the name with the given type. The name is the last of the words. -/
def Declares (tokens : List Token) (name : String) (type : CType) : Prop :=
  ∃ left right, tokens = left.reverse ++ .word name :: right ∧ Declarator left right type

theorem Declares.unique {tokens : List Token} {name : String} {type type' : CType}
    (h : Declares tokens name type) (h' : Declares tokens name type') : type = type' := by
  obtain ⟨left, right, rfl, hdeclarator⟩ := h
  obtain ⟨left', right', hsplit, hdeclarator'⟩ := h'
  have hreversed : right.reverse ++ .word name :: left = right'.reverse ++ .word name :: left' := by
    simpa using congrArg List.reverse hsplit
  have hnone : ∀ {left right : List Token} {type : CType}, Declarator left right type →
      .word name ∉ right.reverse := fun h => by simpa using h.word_notMem name
  obtain ⟨hright, rfl⟩ := split_unique (hnone hdeclarator) (hnone hdeclarator') hreversed
  obtain rfl := List.reverse_injective hright
  exact hdeclarator.unique hdeclarator'

end Emitter.Reading

namespace Emitter.Layout

open Reading

/-- The text declares the name with the given type, and with no other. -/
def Code.DeclaresAs (code : Code) (name : String) (type : CType) : Prop :=
  ∃ tokens, scan code.text = some tokens ∧ ∀ type', Declares tokens name type' ↔ type' = type

theorem Code.DeclaresAs.unique {code : Code} {name : String} {type type' : CType}
    (h : code.DeclaresAs name type) (h' : code.DeclaresAs name type') : type = type' := by
  obtain ⟨tokens, hscan, hdeclares⟩ := h
  obtain ⟨tokens', hscan', hdeclares'⟩ := h'
  obtain rfl := Option.some.inj (hscan.symm.trans hscan')
  exact (hdeclares' type).mp ((hdeclares type).mpr rfl)

/-- The text in front of any name declares the name with the given type, and with no other. -/
def Code.SpellsAs (code : Code) (type : CType) : Prop :=
  ∃ tokens, scan code.text = some tokens ∧
    ∀ type', Declarator tokens.reverse [] type' ↔ type' = type

end Emitter.Layout
