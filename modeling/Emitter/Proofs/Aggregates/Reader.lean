import Emitter.Layout.Lexeme
import Mathlib.Data.List.Forall2

/-!
# A reader that looks for empty aggregates

C has no array of length zero and no enumeration, structure or initializer with nothing between its
braces. A small machine reads code for these. It knows a declared name by the type in front of it:
the name stands behind a word, or behind a star with no space in between, and its lengths follow it.
Braces behind a name, an equals sign, a comma or another opening brace are those of an aggregate,
any others those of a block.
-/

namespace Emitter.Aggregates

open Layout

/-- Where the reader stands. -/
inductive Place
  | plain
  /-- Behind a word that may name a type. -/
  | word
  /-- Behind a star. -/
  | star
  /-- Behind a declared name or one of its lengths. -/
  | name
  /-- Between the brackets of a length. -/
  | length
  /-- Behind the length zero. -/
  | zero
  /-- Where a list of values may start. -/
  | list
  /-- Behind the opening brace of an aggregate. -/
  | opened
  deriving DecidableEq

/-- Words that a statement may follow and that name no type. -/
def leadingWords : List String := ["return", "else", "do"]

namespace Place

/-- The place behind a symbol, unless the symbol closes an empty aggregate. -/
def symbol (p : Place) (s : String) : Option Place :=
  if s = "*" then some star
  else if s = "[" then some (if p = name then length else plain)
  else if s = "]" then if p = zero then none else some (if p = length then name else plain)
  else if s = "\x7b" then some (if p = plain then plain else opened)
  else if s = "\x7d" then if p = opened then none else some plain
  else if s = "=" ∨ s = "," then some list
  else some plain

/-- The place behind a lexeme, unless the lexeme closes an empty aggregate. -/
def next (p : Place) : Lexeme → Option Place
  | .word w | .supplied w _ => some
    (if w ∈ leadingWords then plain else if p ∈ [word, star, name] then name else word)
  | .number s => some (if p = length then if s = "0" then zero else length else plain)
  | .quoted _ => some plain
  | .gap => some (if p = star then plain else p)
  | .symbol s => p.symbol s

/-- The place behind some code, unless an empty aggregate is in it. -/
def read (p : Place) (code : Code) : Option Place := code.foldlM next p

variable {p : Place} {code rest : Code}

@[simp] theorem read_nil : p.read [] = some p := rfl

@[simp] theorem read_cons {l : Lexeme} : p.read (l :: code) = (p.next l).bind (·.read code) := rfl

theorem read_append : p.read (code ++ rest) = (p.read code).bind (·.read rest) := by
  simp [read, List.foldlM_append]

end Place

/-- There is an array of length zero in the code, or an aggregate with nothing between its braces.
-/
def hasEmptyAggregate (code : Code) : Bool := (Place.plain.read code).isNone

/-- From each of some places the code leads to one of others, or it has an empty aggregate in it. -/
def Crosses (before after : List Place) (empty : Bool) (code : Code) : Prop :=
  ∀ p ∈ before, if empty then p.read code = none else ∃ q ∈ after, p.read code = some q

instance (before after : List Place) (empty : Bool) (code : Code) :
    Decidable (Crosses before after empty code) :=
  inferInstanceAs (Decidable (∀ p ∈ before, _))

namespace Crosses

variable {before middle after before' after' : List Place} {empty empty' : Bool} {code rest : Code}

theorem mono (h : Crosses before after empty code) (hbefore : before' ⊆ before)
    (hafter : after ⊆ after') : Crosses before' after' empty code := by
  intro p hp
  have hread := h p (hbefore hp)
  cases empty with
  | true => exact hread
  | false =>
      obtain ⟨q, hq, hread⟩ := hread
      exact ⟨q, hafter hq, hread⟩

theorem nil (h : before ⊆ after) : Crosses before after false [] := fun p hp => ⟨p, h hp, rfl⟩

theorem append (h : Crosses before middle empty code) (h' : Crosses middle after empty' rest) :
    Crosses before after (empty || empty') (code ++ rest) := by
  intro p hp
  have hread := h p hp
  rw [Place.read_append]
  cases empty with
  | true =>
      have hnone : p.read code = none := hread
      rw [hnone]
      rfl
  | false =>
      obtain ⟨q, hq, hread⟩ := hread
      rw [hread]
      exact h' q hq

/-- Code with no empty aggregate in it goes in front. -/
theorem behind (h : Crosses before middle false code) (h' : Crosses middle after empty rest) :
    Crosses before after empty (code ++ rest) := h.append h'

/-- Code with no empty aggregate in it goes behind. -/
theorem followed (h : Crosses before middle empty code) (h' : Crosses middle after false rest) :
    Crosses before after empty (code ++ rest) := by
  simpa using h.append h'

theorem hasEmptyAggregate_eq (h : Crosses [.plain] after empty code) :
    hasEmptyAggregate code = empty := by
  have hread := h .plain (by simp)
  unfold hasEmptyAggregate
  cases empty with
  | true =>
      have hnone : Place.plain.read code = none := hread
      rw [hnone]
      rfl
  | false =>
      obtain ⟨q, -, hread⟩ := hread
      rw [hread]
      rfl

theorem forall₂_of_forall {pieces : List Code}
    (h : ∀ piece ∈ pieces, Crosses before after false piece) :
    List.Forall₂ (Crosses before after) (pieces.map fun _ => false) pieces :=
  List.forall₂_map_left_iff.mpr (List.forall₂_same.mpr h)

/-- Pieces with commas between them, of which there is at least one. -/
theorem commaSeparated_cons (hcomma : Crosses middle before false Code.comma) {piece : Code}
    {pieces : List Code} {empties : List Bool} (h : Crosses before middle empty piece)
    (hpieces : List.Forall₂ (Crosses before middle) empties pieces) :
    Crosses before middle (empty || empties.any id) (Code.commaSeparated (piece :: pieces)) := by
  induction hpieces generalizing empty piece with
  | nil => simpa [Code.commaSeparated] using h
  | @cons next rest empties pieces hnext hrest ih =>
      have hall := (h.followed hcomma).append (ih hnext)
      simpa [Code.commaSeparated, Bool.or_assoc] using hall

/-- Pieces with commas between them. -/
theorem commaSeparated (hcomma : Crosses middle before false Code.comma) {pieces : List Code}
    {empties : List Bool} (h : List.Forall₂ (Crosses before middle) empties pieces) :
    Crosses before (before ++ middle) (empties.any id) (Code.commaSeparated pieces) := by
  cases h with
  | nil => exact nil (List.subset_append_left _ _)
  | cons hpiece hpieces =>
      exact (commaSeparated_cons hcomma hpiece hpieces).mono (List.Subset.refl _)
        (List.subset_append_right _ _)

end Crosses

end Emitter.Aggregates
