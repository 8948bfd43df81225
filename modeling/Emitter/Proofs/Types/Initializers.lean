import Emitter.Proofs.Reading.Unambiguous
import Emitter.Proofs.Types.Declarators

/-!
# Initializers of C

What stands behind the equals sign of a declaration: an expression, or a list of such between
braces. A list is for an array that is as long at least, and everything else takes an expression.
-/

namespace Emitter.Reading

/-- The tokens are an initializer. A list between braces has the tree of a list, as no expression of
C has. -/
inductive Initializes (t : Target) : List Token → Tree → Prop
  | value {ts : List Token} {tree : Tree} (h : Parses t 0 ts tree)
      (hvalue : ∀ elements, tree ≠ .items elements) : Initializes t ts tree
  | list {pieces : List (List Token × Tree)} (h : ∀ p ∈ pieces, Initializes t p.1 p.2) :
      Initializes t (.symbol "\x7b" :: (commaTokens (pieces.map Prod.fst) ++ [.symbol "\x7d"]))
        (.items (pieces.map Prod.snd))

/-- A token with brackets for braces. -/
def Token.bracketed : Token → Token
  | symbol s => symbol (if s = "\x7b" then "[" else if s = "\x7d" then "]" else s)
  | token => token

variable {t : Target} {ts : List Token} {tree tree' : Tree}

@[simp] theorem map_bracketed_commaTokens (pieces : List (List Token)) :
    (commaTokens pieces).map Token.bracketed =
      commaTokens (pieces.map (List.map Token.bracketed)) := by
  induction pieces with
  | nil => rfl
  | cons piece pieces ih =>
      cases pieces with
      | nil => simp [commaTokens]
      | cons next pieces => simpa [commaTokens, Token.bracketed] using ih

/-- No braces stand in an expression. -/
theorem Parses.map_bracketed {level : Nat} (h : Parses t level ts tree) :
    ts.map Token.bracketed = ts := by
  have hpieces : ∀ {pieces : List (List Token × Tree)},
      (∀ p ∈ pieces, p.1.map Token.bracketed = p.1) →
        pieces.map (List.map Token.bracketed ∘ Prod.fst) = pieces.map Prod.fst :=
    fun h => List.map_congr_left h
  induction h with
  | name | number | text => rfl
  | group h ht ih => simp [ih, Token.bracketed]
  | items h ih => simp [hpieces ih, Token.bracketed]
  | member h hs name ih => rcases hs with rfl | rfl <;> simp [ih, Token.bracketed]
  | element ha hp iha ihp => simp [iha, ihp, Token.bracketed]
  | call hf h ihf ih => simp [ihf, hpieces ih, Token.bracketed]
  | postfixed h hop ih => rcases hop with rfl | rfl <;> simp [ih, Token.bracketed]
  | prefixed hop h ih =>
      have hops : ∀ op ∈ prefixOperators t, op.bracketed = op := by
        cases t with
        | actionScript => decide
        | cFamily d => cases d <;> decide
      simp [ih, hops _ hop]
  | cast hne htype h ih => simp [ih, Token.bracketed]
  | binary hop hl hr ihl ihr =>
      have hops : ∀ p ∈ binaryLevels, (Token.symbol p.1).bracketed = .symbol p.1 := by decide
      simp [ihl, ihr, hops _ (mem_binaryLevels hop)]
  | select hc ha hb ihc iha ihb => simp [ihc, iha, ihb, Token.bracketed]
  | looser h ih => exact ih

/-- With brackets for its braces, an initializer is an expression. -/
theorem Initializes.parses (h : Initializes t ts tree) :
    Parses t 0 (ts.map Token.bracketed) tree := by
  induction h with
  | value h hvalue => rwa [h.map_bracketed]
  | @list pieces h ih =>
      have hpieces : ∀ p ∈ pieces.map fun p => (p.1.map Token.bracketed, p.2), Parses t 0 p.1 p.2 :=
        List.forall_mem_map.mpr ih
      have hitems := (Parses.items hpieces).mono (Nat.zero_le 13)
      simpa [Token.bracketed, Function.comp_def] using hitems

/-- An initializer has one tree. -/
theorem Initializes.unique (h : Initializes t ts tree) (h' : Initializes t ts tree') :
    tree = tree' :=
  h.parses.unique h'.parses

/-- The values that an initializer gives to the parts of an object, in order. There are none where a
list stands for what is no array, is longer than the array, or is missing for one. -/
def CType.initialized : CType → Tree → Option (List Tree)
  | array length element, .items items =>
    if items.length ≤ length then (items.mapM element.initialized).map List.flatten else none
  | array _ _, _ => none
  | _, .items _ => none
  | _, tree => some [tree]

/-- No equals sign stands around a declared name. -/
theorem Declarator.equals_notMem {left right : List Token} {type : CType}
    (h : Declarator left right type) : .symbol "=" ∉ left ∧ .symbol "=" ∉ right := by
  induction h with
  | base h => simp
  | pointer qualifiers hright h ih => simpa using ih
  | array length h ih => simpa using ih
  | group h ih => simpa using ih

theorem Declares.equals_notMem {name : String} {type : CType} (h : Declares ts name type) :
    .symbol "=" ∉ ts := by
  obtain ⟨left, right, rfl, hdeclarator⟩ := h
  simpa using hdeclarator.equals_notMem

/-- The tokens define the name with the given type and start it with the given initializer. -/
def Defines (t : Target) (tokens : List Token) (name : String) (type : CType) (tree : Tree) :
    Prop :=
  ∃ declared initial, tokens = declared ++ .symbol "=" :: (initial ++ [.symbol ";"]) ∧
    Declares declared name type ∧ Initializes t initial tree

theorem Defines.unique {name : String} {type type' : CType} (h : Defines t ts name type tree)
    (h' : Defines t ts name type' tree') : type = type' ∧ tree = tree' := by
  obtain ⟨declared, initial, rfl, hdeclares, hinitializes⟩ := h
  obtain ⟨declared', initial', hsplit, hdeclares', hinitializes'⟩ := h'
  obtain ⟨rfl, hinitial⟩ :=
    split_unique hdeclares.equals_notMem hdeclares'.equals_notMem hsplit
  obtain rfl := List.append_cancel_right hinitial
  exact ⟨hdeclares.unique hdeclares', hinitializes.unique hinitializes'⟩

end Emitter.Reading

namespace Emitter.Layout

open Reading

/-- The text defines the name with the given type and initializer, and with no other. -/
def Code.DefinesAs (t : Target) (code : Code) (name : String) (type : CType) (tree : Tree) : Prop :=
  ∃ tokens, scan code.text = some tokens ∧
    ∀ type' tree', Defines t tokens name type' tree' ↔ type' = type ∧ tree' = tree

end Emitter.Layout
