import Emitter.Proofs.Reading.Tidy
import Emitter.Proofs.Reading.Unambiguous

/-!
# Pieces of printed expressions

A piece is printed code of an expression together with the tree it is read as. Each rule of the
grammar puts pieces together into a larger one. Where code is not strict, a number may run into
the name behind it, and a piece promises no tree.
-/

namespace Emitter.Layout

open Reading

/-- The words that statements start with. -/
def statementWords : List String := ["if", "else", "while", "do", "for"]

/-- The words that no name may be, those that statements and operators start with. -/
def controlWords : Target → List String
  | .actionScript => statementWords
  | .cFamily _ => statementWords ++ ["sizeof"]

namespace Lexeme

/-- The lexeme is a name, supplied or not. -/
def Names (name : String) (l : Lexeme) : Prop :=
  l = word name ∨ ∃ supplier, l = supplied name supplier

theorem names_word (name : String) : Names name (word name) := .inl rfl

theorem names_supplied (name : String) (supplier : Supplier) :
    Names name (supplied name supplier) := .inr ⟨supplier, rfl⟩

/-- An expression may start with the lexeme. -/
def Begins : Lexeme → Prop
  | word text | supplied text _ => text ∉ statementWords
  | number _ | quoted _ => True
  | symbol s => s ∈ ["(", "[", "-", "!", "~", "++", "--", "&"]
  | gap => False

/-- An expression may end with the lexeme. A number must not take a sign behind it for the one of
an exponent. -/
def Ends : Lexeme → Prop
  | word _ | supplied .. | quoted _ => True
  | number text => ∀ c ∈ text.toList.getLast?, c ∉ ['e', 'E', 'p', 'P']
  | symbol s => s ∈ [")", "]", "++", "--"]
  | gap => False

theorem Ends.ne_slash {l : Lexeme} (h : l.Ends) : l ≠ symbol "/" ∧ l ≠ symbol "/=" := by
  constructor <;> rintro rfl <;> revert h <;> simp [Ends]

/-- Nothing runs into a name, a literal, a closing bracket or a postfix operator except a point
behind a number. -/
theorem Ends.apart {a : Lexeme} (h : a.Ends) {s : String} (hs : s ∈ [".", "->", "++", "--"])
    (hnumber : s = "." → ∀ text, a ≠ .number text) : a.Apart (.symbol s) := by
  have hfirst :
      ∀ s ∈ ["->", "++", "--"], s.toList.head? = some '+' ∨ s.toList.head? = some '-' := by
    decide
  intro c hc
  cases a with
  | word text | supplied text _ =>
      have hall : ∀ s ∈ [".", "->", "++", "--"], ∀ c ∈ s.toList.head?, isWordChar c = false := by
        decide
      simp [pending, Mode.extend, hall s hs c hc]
  | number text =>
      have hsign : s.toList.head? = some '+' ∨ s.toList.head? = some '-' := by
        refine hfirst s ?_
        simp only [List.mem_cons, List.not_mem_nil, or_false] at hs ⊢
        rcases hs with rfl | hs
        · exact absurd rfl (hnumber rfl text)
        · exact hs
      have hno : ∀ b ∈ text.toList.getLast?, continuesNumber b c = false := by
        intro b hb
        have hexp := h b hb
        simp only [List.mem_cons, List.not_mem_nil, or_false, not_or] at hexp
        have hc : c = '+' ∨ c = '-' := by
          rcases hsign with hsign | hsign
          · exact .inl (Option.some.inj (hc.symm.trans hsign))
          · exact .inr (Option.some.inj (hc.symm.trans hsign))
        rcases hc with rfl | rfl <;>
          simp [continuesNumber, isWordChar, isWordStart, hexp]
      cases hlast : text.toList.getLast? with
      | none => simp [pending, Mode.extend, hlast]
      | some b => simp [pending, Mode.extend, hlast, hno b (by simp [hlast])]
  | quoted contents => rfl
  | symbol text =>
      have hall : ∀ e ∈ [")", "]", "++", "--"], ∀ s ∈ [".", "->", "++", "--"],
          ∀ c ∈ s.toList.head?, (Lexeme.symbol e).pending.extend c = none := by decide
      exact hall text h s hs c hc
  | gap => exact h.elim

/-- A prefix operator does not run into an operand that starts with no sign of its own. -/
theorem Begins.apart {b : Lexeme} (h : b.Begins) (hb : b.Spelled) {s : String}
    (hs : s ∈ ["-", "!", "~", "++", "--", "&"])
    (hminus : s = "-" → b ≠ .symbol "-" ∧ b ≠ .symbol "--") (hand : s = "&" → b ≠ .symbol "&") :
    (Lexeme.symbol s).Apart b := by
  have hmore : ∀ s ∈ ["-", "!", "~", "++", "--", "&"], s.toList ≠ ['.'] ∧
      ∀ op ∈ operators, op.dropLast = s.toList → ∀ d ∈ op.getLast?, d ∈ ['-', '=', '>', '&'] := by
    decide
  obtain ⟨hpoint, hmore⟩ := hmore s hs
  intro c hc
  have hno : s.toList ++ [c] ∉ operators → (Lexeme.symbol s).pending.extend c = none := by
    intro hno
    simp [pending, Mode.extend, hpoint, hno]
  have hplain : c ∉ ['-', '=', '>', '&'] → s.toList ++ [c] ∉ operators := fun hc hmem =>
    hc (hmore _ hmem (by simp) c (by simp))
  cases b with
  | word text | supplied text _ =>
      refine hno (hplain fun hmem => ?_)
      have hall : ∀ c ∈ ['-', '=', '>', '&'], isWordStart c = false := by decide
      cases ht : text.toList with
      | nil => simp [Lexeme.text, ht] at hc
      | cons d ds =>
          obtain rfl : d = c := by simpa [Lexeme.text, ht] using hc
          simp [Spelled, isWord, ht, hall d hmem] at hb
  | number text =>
      refine hno (hplain fun hmem => ?_)
      have hall : ∀ c ∈ ['-', '=', '>', '&'], c.isDigit = false := by decide
      cases ht : text.toList with
      | nil => simp [Lexeme.text, ht] at hc
      | cons d ds =>
          obtain rfl : d = c := by simpa [Lexeme.text, ht] using hc
          simp [Spelled, isNumber, ht, hall d hmem] at hb
  | quoted contents =>
      obtain rfl : '"' = c := by simpa [Lexeme.text, Text.quoted] using hc
      exact hno (hplain (by decide))
  | symbol text =>
      have hall : ∀ s ∈ ["-", "!", "~", "++", "--", "&"],
          ∀ b ∈ ["(", "[", "-", "!", "~", "++", "--", "&"],
            (s = "-" → b ≠ "-" ∧ b ≠ "--") → (s = "&" → b ≠ "&") →
              ∀ c ∈ b.toList.head?, (Lexeme.symbol s).pending.extend c = none := by decide
      refine hall s hs text h (fun e => ?_) (fun e => ?_) c hc
      · simpa using hminus e
      · simpa using hand e
  | gap => exact h.elim

end Lexeme

open Lexeme

theorem getLast?_bracketed (opener closer : Lexeme) (code : Code) :
    (opener :: (code ++ [closer])).getLast? = some closer := by
  rw [← List.cons_append, List.getLast?_append]
  rfl

theorem not_mem_statementWords {t : Target} {text : String} (h : text ∉ controlWords t) :
    text ∉ statementWords := by
  cases t with
  | actionScript => exact h
  | cFamily d => exact fun hmem => h (List.mem_append_left _ hmem)

theorem not_mem_prefixOperators {t : Target} {text : String} (h : text ∉ controlWords t) :
    .word text ∉ prefixOperators t := by
  cases t with
  | actionScript => simp [prefixOperators, prefixOperators.signs]
  | cFamily d =>
      simp only [controlWords, List.mem_append, List.mem_singleton, not_or] at h
      simp [prefixOperators, prefixOperators.signs, h]

theorem Code.Tidy.name {strict : Bool} {name : String} {l : Lexeme} (hl : l.Names name)
    (h : isWord name = true) : Code.Tidy strict [l] := by
  rcases hl with rfl | ⟨supplier, rfl⟩
  · exact .word h
  · exact .supplied h supplier

/-- Tidy code that starts and ends as an expression does. -/
structure Code.Stretch (strict : Bool) (code : Code) : Prop
    extends Code.Tidy strict code where
  begins : ∃ l ∈ code.head?, l.Begins
  ends : ∃ l ∈ code.getLast?, l.Ends

namespace Code.Stretch

variable {strict : Bool} {code : Code}

theorem ne_nil (h : Code.Stretch strict code) : code ≠ [] := by
  obtain ⟨l, hl, -⟩ := h.begins
  rintro rfl
  simp at hl

theorem ends_of_mem (h : Code.Stretch strict code) {l : Lexeme} (hl : l ∈ code.getLast?) :
    l.Ends := by
  obtain ⟨l', hl', hends⟩ := h.ends
  rwa [Option.mem_unique hl hl']

theorem begins_of_mem (h : Code.Stretch strict code) {l : Lexeme} (hl : l ∈ code.head?) :
    l.Begins := by
  obtain ⟨l', hl', hbegins⟩ := h.begins
  rwa [Option.mem_unique hl hl']

/-- A separate symbol may stand behind a stretch. -/
theorem joint_separate (h : Code.Stretch strict code) {b : Lexeme}
    (hb : b.isSeparate = true) : ∀ x ∈ code.getLast?, Joint strict x b := by
  intro x hx
  obtain ⟨hne, hne'⟩ := (h.ends_of_mem hx).ne_slash
  refine .of_separate_right (h.spelled x (List.mem_of_getLast? hx)) hb ?_
  rintro (hs | hs)
  · exact absurd hs hne
  · exact absurd hs hne'

/-- A selector or a postfix operator may stand behind a stretch. -/
theorem joint_behind (h : Code.Stretch strict code) {s : String}
    (hs : s ∈ [".", "->", "++", "--"])
    (hnumber : strict = true → s = "." → ∀ text, .number text ∉ code.getLast?) :
    ∀ x ∈ code.getLast?, Joint strict x (.symbol s) := by
  intro x hx
  obtain ⟨hne, hne'⟩ := (h.ends_of_mem hx).ne_slash
  refine ⟨fun hstrict => (h.ends_of_mem hx).apart hs ?_, fun _ => rfl, ?_⟩
  · rintro hpoint text rfl
    exact hnumber hstrict hpoint text hx
  · rintro (hslash | hslash)
    · exact absurd hslash hne
    · exact absurd hslash hne'

/-- A stretch goes on behind with code that keeps clear of its end. -/
theorem append {rest : Code} (h : Code.Stretch strict code) (hrest : Code.Tidy strict rest)
    (hjoint : ∀ x ∈ code.getLast?, ∀ y ∈ rest.head?, Joint strict x y)
    (hends : ∃ l ∈ rest.getLast?, l.Ends) : Code.Stretch strict (code ++ rest) where
  toTidy := h.toTidy.append hrest hjoint
  begins := by
    obtain ⟨l, hl, hbegins⟩ := h.begins
    exact ⟨l, by simp_all [List.head?_append], hbegins⟩
  ends := by
    obtain ⟨l, hl, hends⟩ := hends
    exact ⟨l, by simp_all [List.getLast?_append], hends⟩

/-- An operator with a space on either side. -/
theorem tidy_operator {s : String} (h : s.toList ∈ operators)
    (hplain : s ∉ ["(", "[", "\x7b", ")", "]", "\x7d", ";", "//", "/*"]) :
    Code.Tidy strict (Code.operator s) := by
  have hgap : Code.Tidy strict [.symbol s, .gap] :=
    (Code.Tidy.symbol h hplain).append .gap fun x hx y hy => by
      obtain rfl : x = .symbol s := by simpa using hx.symm
      obtain rfl : y = .gap := by simpa using hy.symm
      exact .of_separate_right h rfl fun _ => rfl
  exact Code.Tidy.gap.append hgap fun x hx y _ => by
    obtain rfl : x = .gap := by simpa using hx.symm
    exact .of_separate_left rfl y

/-- Two stretches with an operator between them. -/
theorem infixed {ls rs : Code} {s : String} (hl : Code.Stretch strict ls)
    (hr : Code.Stretch strict rs) (h : s.toList ∈ operators)
    (hplain : s ∉ ["(", "[", "\x7b", ")", "]", "\x7d", ";", "//", "/*"]) :
    Code.Stretch strict (ls ++ Code.operator s ++ rs) := by
  have hleft : Code.Tidy strict (ls ++ Code.operator s) :=
    hl.toTidy.append (tidy_operator h hplain) fun x hx y hy => by
      obtain rfl : y = .gap := by simpa [Code.operator] using hy.symm
      exact hl.joint_separate rfl x hx
  have hlast : (ls ++ Code.operator s).getLast? = some .gap := by
    simp [Code.operator, List.getLast?_append]
  refine ⟨hleft.append hr.toTidy fun x hx y _ => ?_, ?_, ?_⟩
  · obtain rfl : x = .gap := by simpa [hlast] using hx.symm
    exact .of_separate_left rfl y
  · obtain ⟨l, hl, hbegins⟩ := hl.begins
    exact ⟨l, by simp_all [List.head?_append], hbegins⟩
  · obtain ⟨l, hl, hends⟩ := hr.ends
    exact ⟨l, by simp_all [List.getLast?_append], hends⟩

end Code.Stretch

/-- The text is cut into tokens by longest match, and these are an expression with the given tree
and with no other. -/
def Code.ReadsAs (t : Target) (code : Code) (tree : Tree) : Prop :=
  ∃ tokens, scan code.text = some tokens ∧ ∀ tree', Parses t 0 tokens tree' ↔ tree' = tree

theorem Code.ReadsAs.unique {t : Target} {code code' : Code} {tree tree' : Tree}
    (h : code.ReadsAs t tree) (h' : code'.ReadsAs t tree') (htext : code.text = code'.text) :
    tree = tree' := by
  obtain ⟨tokens, hscan, hparses⟩ := h
  obtain ⟨tokens', hscan', hparses'⟩ := h'
  rw [htext, hscan'] at hscan
  obtain rfl := Option.some.inj hscan
  exact (hparses' tree).mp ((hparses tree).mpr rfl)

/-- Code of an expression of the given level or a tighter one, which reads as the given tree where
it is strict. -/
structure Piece (t : Target) (strict : Bool) (level : Nat) (code : Code) (tree : Tree) : Prop
    extends Code.Stretch strict code where
  parses : strict = true → Parses t level code.tokens tree

namespace Piece

variable {t : Target} {strict : Bool} {level : Nat} {code : Code} {tree : Tree}

theorem mono {level' : Nat} (h : Piece t strict level' code tree) (hle : level ≤ level') :
    Piece t strict level code tree :=
  { h with parses := fun hs => (h.parses hs).mono hle }

/-- The text of a strict piece is cut into tokens that are an expression, and only the one with
the piece's tree. -/
theorem readsAs (h : Piece t true level code tree) : code.ReadsAs t tree := by
  refine ⟨code.tokens, Code.scan_text h.spelled (h.joint.imp fun _ _ hj => hj.apart rfl),
    fun tree' => ⟨fun h' => h'.unique (h.parses rfl), ?_⟩⟩
  rintro rfl
  exact (h.parses rfl).mono (Nat.zero_le level)

theorem name {text : String} {l : Lexeme} (hl : l.Names text) (h : isWord text = true)
    (hcontrol : text ∉ controlWords t) : Piece t strict 13 [l] (.name text) where
  toTidy := .name hl h
  begins := by
    have hbegins := not_mem_statementWords hcontrol
    rcases hl with rfl | ⟨supplier, rfl⟩ <;> exact ⟨_, rfl, hbegins⟩
  ends := by rcases hl with rfl | ⟨supplier, rfl⟩ <;> exact ⟨_, rfl, trivial⟩
  parses _ := by
    rcases hl with rfl | ⟨supplier, rfl⟩ <;> exact .name (not_mem_prefixOperators hcontrol)

theorem number {text : String} (h : isNumber text = true)
    (hexp : ∀ c ∈ text.toList.getLast?, c ∉ ['e', 'E', 'p', 'P']) :
    Piece t strict 13 [.number text] (.number text) where
  toTidy := .number h
  begins := ⟨_, rfl, trivial⟩
  ends := ⟨_, rfl, hexp⟩
  parses _ := .number text

theorem text (contents : String) : Piece t strict 13 [.quoted contents] (.text contents) where
  toTidy := .quoted contents
  begins := ⟨_, rfl, trivial⟩
  ends := ⟨_, rfl, trivial⟩
  parses _ := .text contents

theorem group (h : Piece t strict 0 code tree) (ht : ¬tree.isType t) :
    Piece t strict 13 code.parenthesized tree where
  toTidy := h.toTidy.bracketed (by simp) (by simp) fun _ hx => (h.ends_of_mem hx).ne_slash
  begins := ⟨_, rfl, by simp [Begins]⟩
  ends := ⟨.symbol ")", getLast?_bracketed .., by simp [Ends]⟩
  parses hs := by simpa [Code.parenthesized] using (h.parses hs).group ht

theorem member {name selector : String} {l : Lexeme} (h : Piece t strict 12 code tree)
    (hs : selector = "." ∨ selector = "->") (hl : l.Names name) (hname : isWord name = true)
    (hnumber : strict = true → selector = "." → ∀ text, .number text ∉ code.getLast?) :
    Piece t strict 12 (code ++ [.symbol selector, l]) (.member tree selector name) := by
  have hrest : Code.Tidy strict [.symbol selector, l] := by
    have hselector : Code.Tidy strict [.symbol selector] := by
      rcases hs with rfl | rfl <;> exact .symbol (by decide) (by decide)
    refine hselector.append (.name hl hname) ?_
    simp only [List.getLast?_singleton, List.head?_cons, Option.mem_some_iff, forall_eq']
    refine ⟨fun _ c hc => ?_, by simp [isWordlike], ?_⟩
    · have hc : c ∈ name.toList.head? := by rcases hl with rfl | ⟨supplier, rfl⟩ <;> exact hc
      have hstart : isWordStart c = true := isWordStart_of_mem_head? hname hc
      have hpoint : c.isDigit = false := isDigit_of_isWordStart hstart
      have hop : ∀ op ∈ operators, ∀ d ∈ op.getLast?, isWordStart d = false := by decide
      have hno : selector.toList ++ [c] ∉ operators := fun hmem => by
        simpa [hstart] using hop _ hmem c (by simp)
      simp [pending, Mode.extend, hpoint, hno]
    · rcases hs with rfl | rfl <;> simp
  have hends : l.Ends := by rcases hl with rfl | ⟨supplier, rfl⟩ <;> trivial
  refine ⟨h.toStretch.append hrest ?_ ⟨l, rfl, hends⟩, fun hstrict => ?_⟩
  · simp only [List.head?_cons, Option.mem_some_iff, forall_eq']
    intro x hx
    refine h.joint_behind ?_ hnumber x hx
    rcases hs with rfl | rfl <;> simp
  · have hparses := (h.parses hstrict).member hs name
    rcases hl with rfl | ⟨supplier, rfl⟩ <;> simpa using hparses

theorem postfixed {op : String} (h : Piece t strict 12 code tree) (hop : op = "++" ∨ op = "--") :
    Piece t strict 12 (code ++ [Lexeme.symbol op]) (.postfixed op tree) := by
  refine ⟨h.toStretch.append ?_ ?_ ⟨.symbol op, rfl, ?_⟩, fun hstrict => ?_⟩
  · rcases hop with rfl | rfl <;> exact .symbol (by decide) (by decide)
  · intro x hx y hy
    obtain rfl : y = .symbol op := by simpa using hy.symm
    refine h.joint_behind (by rcases hop with rfl | rfl <;> simp) (fun _ hpoint => ?_) x hx
    rcases hop with rfl | rfl <;> simp at hpoint
  · rcases hop with rfl | rfl <;> simp [Ends]
  · simpa using (h.parses hstrict).postfixed hop

theorem element {array position : Code} {a p : Tree} (ha : Piece t strict 12 array a)
    (hp : Piece t strict 0 position p) :
    Piece t strict 12 (array ++ Lexeme.symbol "[" :: (position ++ [Lexeme.symbol "]"]))
      (.element a p) := by
  have hbrackets : Code.Tidy strict (.symbol "[" :: (position ++ [Lexeme.symbol "]"])) :=
    hp.toTidy.bracketed (by simp) (by simp) fun _ hx => (hp.ends_of_mem hx).ne_slash
  refine ⟨ha.toStretch.append hbrackets ?_
    ⟨.symbol "]", getLast?_bracketed .., by simp [Ends]⟩, fun hs => ?_⟩
  · intro x hx y hy
    obtain rfl : y = .symbol "[" := by simpa using hy.symm
    exact ha.joint_separate rfl x hx
  · simpa using (ha.parses hs).element (hp.parses hs)

/-- Pieces with commas between them. -/
theorem tidy_commaSeparated {pieces : List (Code × Tree)}
    (h : ∀ p ∈ pieces, Piece t strict 0 p.1 p.2) :
    Code.Tidy strict (Code.commaSeparated (pieces.map Prod.fst)) ∧
      ∀ x ∈ (Code.commaSeparated (pieces.map Prod.fst)).getLast?, x.Ends := by
  have hcomma : Code.Tidy strict Code.comma :=
    (Code.Tidy.symbol (by decide) (by decide)).append .gap fun x hx y _ => by
      obtain rfl : x = .symbol "," := by simpa using hx.symm
      exact .of_separate_left rfl y
  induction pieces with
  | nil => exact ⟨.nil, by simp [Code.commaSeparated]⟩
  | cons piece pieces ih =>
      obtain ⟨hpiece, hpieces⟩ := List.forall_mem_cons.mp h
      cases pieces with
      | nil =>
          simp only [Code.commaSeparated, List.map_cons, List.map_nil, List.intersperse_singleton,
            List.flatten_singleton]
          exact ⟨hpiece.toTidy, fun x hx => hpiece.ends_of_mem hx⟩
      | cons next pieces =>
          obtain ⟨htidy, hends⟩ := ih hpieces
          have hsplit : Code.commaSeparated ((piece :: next :: pieces).map Prod.fst) =
              piece.1 ++ (Code.comma ++ Code.commaSeparated ((next :: pieces).map Prod.fst)) := by
            simp [Code.commaSeparated]
          have hne : Code.commaSeparated ((next :: pieces).map Prod.fst) ≠ [] := by
            have := (hpieces next (by simp)).ne_nil
            cases pieces <;> simp [Code.commaSeparated, this]
          rw [hsplit]
          refine ⟨hpiece.toTidy.append (hcomma.append htidy ?_) ?_, ?_⟩
          · intro x hx y _
            obtain rfl : x = .gap := by simpa [Code.comma] using hx.symm
            exact .of_separate_left rfl y
          · intro x hx y hy
            obtain rfl : y = .symbol "," := by simpa [Code.comma] using hy.symm
            exact hpiece.joint_separate rfl x hx
          · intro x hx
            refine hends x ?_
            obtain ⟨l, hl⟩ := Option.isSome_iff_exists.mp (List.getLast?_isSome.mpr hne)
            rw [← List.append_assoc, List.getLast?_append, hl, Option.some_or] at hx
            rwa [hl]

@[simp] theorem tokens_commaSeparated (pieces : List Code) :
    (Code.commaSeparated pieces).tokens = commaTokens (pieces.map Code.tokens) := by
  induction pieces with
  | nil => rfl
  | cons piece pieces ih =>
      cases pieces with
      | nil => simp [Code.commaSeparated, commaTokens]
      | cons next pieces =>
          simpa [Code.commaSeparated, commaTokens, Code.comma] using ih

theorem call {f : Tree} {pieces : List (Code × Tree)} (hf : Piece t strict 12 code f)
    (h : ∀ p ∈ pieces, Piece t strict 0 p.1 p.2) :
    Piece t strict 12 (code ++ Code.parenthesized (Code.commaSeparated (pieces.map Prod.fst)))
      (.call f (pieces.map Prod.snd)) := by
  obtain ⟨htidy, hends⟩ := tidy_commaSeparated h
  refine ⟨hf.toStretch.append (htidy.bracketed (by simp) (by simp) fun x hx =>
    (hends x hx).ne_slash) ?_ ⟨.symbol ")", getLast?_bracketed .., by simp [Ends]⟩, fun hs => ?_⟩
  · intro x hx y hy
    obtain rfl : y = .symbol "(" := by simpa [Code.parenthesized] using hy.symm
    exact hf.joint_separate rfl x hx
  · have hpieces : ∀ p ∈ pieces.map fun p => (p.1.tokens, p.2), Parses t 0 p.1 p.2 := by
      simp only [List.mem_map, forall_exists_index, and_imp, forall_apply_eq_imp_iff₂]
      exact fun p hp => (h p hp).parses hs
    simpa [Code.parenthesized, Function.comp_def] using (hf.parses hs).call hpieces

/-- Items between square brackets with a space inside of each. -/
theorem items {pieces : List (Code × Tree)} (h : ∀ p ∈ pieces, Piece t strict 0 p.1 p.2) :
    Piece t strict 13
      (([.symbol "[", .gap] : Code) ++ Code.commaSeparated (pieces.map Prod.fst) ++
        ([.gap, .symbol "]"] : Code))
      (.items (pieces.map Prod.snd)) := by
  obtain ⟨htidy, hends⟩ := tidy_commaSeparated h
  have hinside :
      Code.Tidy strict (.gap :: (Code.commaSeparated (pieces.map Prod.fst) ++ [Lexeme.gap])) := by
    refine Code.Tidy.gap.append (htidy.append .gap ?_) fun x hx y _ => ?_
    · intro x hx y hy
      obtain rfl : y = .gap := by simpa using hy.symm
      obtain ⟨hne, hne'⟩ := (hends x hx).ne_slash
      exact .of_separate_right (htidy.spelled x (List.mem_of_getLast? hx)) rfl fun _ => rfl
    · obtain rfl : x = .gap := by simpa using hx.symm
      exact .of_separate_left rfl y
  have hcode : [Lexeme.symbol "[", Lexeme.gap] ++ Code.commaSeparated (pieces.map Prod.fst) ++
      [Lexeme.gap, Lexeme.symbol "]"] =
        Lexeme.symbol "[" :: (Lexeme.gap :: (Code.commaSeparated (pieces.map Prod.fst) ++
          [Lexeme.gap]) ++ [Lexeme.symbol "]"]) := by simp
  rw [hcode]
  refine ⟨⟨hinside.bracketed (by simp) (by simp) ?_, ⟨.symbol "[", rfl, by simp [Begins]⟩,
    ⟨.symbol "]", getLast?_bracketed .., by simp [Ends]⟩⟩, fun hs => ?_⟩
  · intro x hx
    obtain rfl : x = .gap := by
      rw [getLast?_bracketed] at hx
      exact (Option.some.inj hx).symm
    simp
  · have hpieces : ∀ p ∈ pieces.map fun p => (p.1.tokens, p.2), Parses t 0 p.1 p.2 := by
      simp only [List.mem_map, forall_exists_index, and_imp, forall_apply_eq_imp_iff₂]
      exact fun p hp => (h p hp).parses hs
    simpa [Function.comp_def] using Parses.items hpieces

theorem prefixed {op : String} (h : Piece t strict 11 code tree)
    (hop : .symbol op ∈ prefixOperators t) (hs : op ∈ ["-", "!", "~", "++", "--", "&"])
    (hminus : strict = true → op = "-" → ∀ x ∈ code.head?, x ≠ .symbol "-" ∧ x ≠ .symbol "--")
    (hand : strict = true → op = "&" → ∀ x ∈ code.head?, x ≠ .symbol "&") :
    Piece t strict 11 (.symbol op :: code) (.prefixed op tree) := by
  have hplain : ∀ s ∈ ["-", "!", "~", "++", "--", "&"], s.toList ∈ operators ∧
      s ∉ ["(", "[", "\x7b", ")", "]", "\x7d", ";", "//", "/*"] ∧ s ≠ "/" ∧ s ≠ "/=" := by decide
  have hbegins : ∀ s ∈ ["-", "!", "~", "++", "--", "&"],
      s ∈ ["(", "[", "-", "!", "~", "++", "--", "&"] := by decide
  obtain ⟨hmem, hquiet, hslash, hslash'⟩ := hplain op hs
  refine ⟨⟨(Code.Tidy.symbol hmem hquiet).append h.toTidy ?_, ⟨_, rfl, hbegins op hs⟩, ?_⟩, ?_⟩
  · intro x hx y hy
    obtain rfl : x = .symbol op := by simpa using hx.symm
    refine ⟨fun hstrict => ?_, fun hword => by simp [isWordlike] at hword, ?_⟩
    · exact (h.begins_of_mem hy).apart (h.spelled y (List.mem_of_mem_head? hy)) hs
        (fun e => hminus hstrict e y hy) fun e => hand hstrict e y hy
    · simp [hslash, hslash']
  · obtain ⟨l, hl, hends⟩ := h.ends
    exact ⟨l, by simp_all [List.getLast?_cons], hends⟩
  · intro hstrict
    exact (h.parses hstrict).prefixed hop

/-- The size of an operand between parentheses. -/
theorem sizeOf {d : Dialect} (ht : t = .cFamily d) (h : Piece t strict 0 code tree)
    (hname : ¬tree.isType t) :
    Piece t strict 11 (.word "sizeof" :: code.parenthesized) (.prefixed "sizeof" tree) := by
  have hgroup := h.group hname
  refine ⟨⟨(Code.Tidy.word (by decide)).append hgroup.toTidy ?_,
    ⟨_, rfl, by simp [Begins, statementWords]⟩, ⟨.symbol ")", ?_, by simp [Ends]⟩⟩, fun hs => ?_⟩
  · intro x hx y hy
    obtain rfl : x = .word "sizeof" := by simpa using hx.symm
    obtain rfl : y = .symbol "(" := by simpa [Code.parenthesized] using hy.symm
    exact .of_separate_right (show isWord "sizeof" = true by decide) rfl (by simp)
  · rw [Code.parenthesized, List.getLast?_cons, List.cons_append, getLast?_bracketed]
    rfl
  · have hop : .word "sizeof" ∈ prefixOperators t := by simp [ht, prefixOperators]
    exact ((hgroup.parses hs).mono (by decide)).prefixed hop

theorem cast {type : Code} {words : List String} (h : Piece t strict 11 code tree)
    (htidy : Code.Tidy strict type) (hends : ∀ x ∈ type.getLast?, x.Ends)
    (htokens : type.tokens = words.map .word) (hne : words ≠ [])
    (hwords : ∀ w ∈ words, w ∈ typeWords t) :
    Piece t strict 11 (type.parenthesized ++ .gap :: code) (.cast words tree) := by
  have htype : Code.Tidy strict type.parenthesized :=
    htidy.bracketed (by simp) (by simp) fun x hx => (hends x hx).ne_slash
  have hgap : Code.Tidy strict (.gap :: code) := Code.Tidy.gap.append h.toTidy fun x hx y _ => by
    obtain rfl : x = .gap := by simpa using hx.symm
    exact .of_separate_left rfl y
  refine ⟨⟨htype.append hgap ?_, ⟨.symbol "(", rfl, by simp [Begins]⟩, ?_⟩, fun hs => ?_⟩
  · intro x hx y _
    obtain rfl : x = .symbol ")" := by
      rw [Code.parenthesized, List.cons_append, getLast?_bracketed] at hx
      exact (Option.some.inj hx).symm
    exact .of_separate_left rfl y
  · obtain ⟨l, hl, hends⟩ := h.ends
    exact ⟨l, by simp_all [List.getLast?_append, List.getLast?_cons], hends⟩
  · simpa [Code.parenthesized, htokens] using (h.parses hs).cast hne hwords

theorem binary {ls rs : Code} {left right : Tree} (op : String)
    (hop : binaryLevel? op = some level) (hl : Piece t strict level ls left)
    (hr : Piece t strict (level + 1) rs right) :
    Piece t strict level (ls ++ Code.operator op ++ rs) (.binary op left right) := by
  have hplain : ∀ p ∈ binaryLevels, p.1.toList ∈ operators ∧
      p.1 ∉ ["(", "[", "\x7b", ")", "]", "\x7d", ";", "//", "/*"] := by decide
  obtain ⟨hmem, hquiet⟩ := hplain _ (mem_binaryLevels hop)
  refine ⟨hl.toStretch.infixed hr.toStretch hmem hquiet, fun hs => ?_⟩
  simpa [Code.operator] using (hl.parses hs).binary hop (hr.parses hs)

theorem select {cs as bs : Code} {cond onTrue onFalse : Tree} (hc : Piece t strict 1 cs cond)
    (ha : Piece t strict 0 as onTrue) (hb : Piece t strict 0 bs onFalse) :
    Piece t strict 0 (cs ++ Code.operator "?" ++ as ++ Code.operator ":" ++ bs)
      (.select cond onTrue onFalse) := by
  refine ⟨(hc.toStretch.infixed ha.toStretch (by decide) (by decide)).infixed hb.toStretch
    (by decide) (by decide), fun hs => ?_⟩
  simpa [Code.operator] using (hc.parses hs).select (ha.parses hs) (hb.parses hs)

end Piece

end Emitter.Layout
