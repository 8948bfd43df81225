import Emitter.Proofs.Expression.Operands
import Emitter.Proofs.Reading.Numerals

/-!
# Literals and constants read as their values

Numbers, truth values, texts, null, enumeration values and the values that ActionScript puts in
place of constants.
-/

namespace Emitter

open Layout Number Program Reading Text

theorem grade_le (cx : Context) (e : Expr) : cx.grade e ≤ 12 := by
  unfold Context.grade
  split_ifs
  · decide
  · cases cx.target.priority e <;> decide

/-- What starts with no sign and ends with no number reads as its tree if it does as a piece. -/
theorem Reads.of_piece {cx : Context} {strict : Bool} {e : Expr} {code : Code} {level : Nat}
    (h : Piece cx.target strict level code (cx.tree e)) (hlevel : 12 ≤ level)
    (hhead : strict = true →
      ∀ x ∈ code.head?, x ≠ .symbol "-" ∧ x ≠ .symbol "--" ∧ x ≠ .symbol "&")
    (hlast : strict = true → ∀ text, .number text ∉ code.getLast?) : Reads cx strict e code where
  piece := h.mono ((grade_le cx e).trans hlevel)
  number hs _ text htext := absurd htext (hlast hs text)
  sign hs _ x hx hsign := by
    obtain ⟨hminus, hdec, -⟩ := hhead hs x hx
    rcases hsign with rfl | rfl
    · exact absurd rfl hminus
    · exact absurd rfl hdec
  address hs _ x hx := (hhead hs x hx).2.2

/-- What binds looser than prefix operators promises nothing about its ends. -/
theorem Reads.of_loose {cx : Context} {strict : Bool} {e : Expr} {code : Code}
    (h : Piece cx.target strict (cx.target.priority e).level code (cx.tree e))
    (hprio : ¬.prefixed ≤ cx.target.priority e) (hnumber : cx.number? e = none) :
    Reads cx strict e code where
  piece := by
    have hzero : cx.isMinusZero e = false := by simp [Context.isMinusZero, hnumber]
    simpa [Context.grade, hzero] using h
  number _ hle := absurd (Nat.le_trans (show Priority.prefixed.rank ≤ _ by decide) hle) hprio
  sign _ hle := absurd hle hprio
  address _ hle := absurd hle hprio

theorem symbol_mem_prefixOperators (t : Target) {s : String} (h : s ∈ ["-", "!", "~", "++", "--"]) :
    .symbol s ∈ prefixOperators t := by
  have hall : ∀ s ∈ ["-", "!", "~", "++", "--"], Token.symbol s ∈ prefixOperators.signs := by decide
  cases t with
  | actionScript => exact hall s h
  | cFamily d => exact List.mem_append_left _ (hall s h)

/-- A piece that starts with no sign and does not end in a number. -/
structure Solid (cx : Context) (strict : Bool) (level : Nat) (code : Code) (tree : Tree) :
    Prop where
  piece : Piece cx.target strict level code tree
  head : strict = true →
    ∀ x ∈ code.head?, x ≠ .symbol "-" ∧ x ≠ .symbol "--" ∧ x ≠ .symbol "&"
  last : strict = true → ∀ text, .number text ∉ code.getLast?

namespace Solid

variable {cx : Context} {strict : Bool} {code : Code}

theorem reads {e : Expr} {level : Nat} {tree : Tree}
    (h : Solid cx strict level code tree) (hlevel : 12 ≤ level) (htree : cx.tree e = tree) :
    Reads cx strict e code :=
  .of_piece (htree ▸ h.piece) hlevel h.head h.last

theorem name {w : String} {l : Lexeme} (hl : l.Names w) (hw : isWord w = true)
    (hcontrol : w ∉ controlWords cx.target) : Solid cx strict 12 [l] (.name w) := by
  refine ⟨(Piece.name hl hw hcontrol).mono (by decide), ?_, ?_⟩ <;>
    rcases hl with rfl | ⟨supplier, rfl⟩ <;> simp

theorem member {tree : Tree} {w selector : String} {l : Lexeme}
    (h : Solid cx strict 12 code tree) (hs : selector = "." ∨ selector = "->") (hl : l.Names w)
    (hw : isWord w = true) :
    Solid cx strict 12 (code ++ [.symbol selector, l]) (.member tree selector w) where
  piece := h.piece.member hs hl hw fun hstrict _ => h.last hstrict
  head := by
    rw [List.head?_append_of_ne_nil _ h.piece.ne_nil]
    exact h.head
  last _ text := by
    rw [List.getLast?_append]
    rcases hl with rfl | ⟨supplier, rfl⟩ <;> simp

end Solid

namespace Context

variable {cx : Context} {strict : Bool} {code : Code}

/-- A minus sign and a magnitude. -/
theorem piece_minus {l : Lexeme} {tree : Tree} (h : Piece cx.target strict 13 [l] tree)
    (hl : ∀ s, l ≠ .symbol s) :
    Piece cx.target strict 11 [.symbol "-", l] (.prefixed "-" tree) := by
  refine (h.mono (by decide)).prefixed (symbol_mem_prefixOperators _ (by decide)) (by decide) ?_ ?_
  · intro _ _ x hx
    obtain rfl : l = x := Option.some.inj hx
    exact ⟨hl _, hl _⟩
  · intro _ hand
    simp at hand

/-- An integer is printed as a number, behind a minus sign if it is below zero. -/
theorem integer_cases (strict : Bool) (n : Int) :
    (n < 0 ∧ Code.integer n = [.symbol "-", .number (toString n.natAbs)] ∧
      Piece cx.target strict 11 (Code.integer n) (integerTree n)) ∨
    (0 ≤ n ∧ Code.integer n = [.number (toString n.natAbs)] ∧
      Piece cx.target strict 13 (Code.integer n) (integerTree n)) := by
  have hnumber : Piece cx.target strict 13 [.number (toString n.natAbs)]
      (.number (toString n.natAbs)) :=
    .number (isNumeral_toString _).number (isNumeral_toString _).last
  by_cases hn : n < 0
  · simp only [Code.integer, integerTree, Tree.signed, hn, if_true, decide_true]
    exact .inl ⟨trivial, trivial, piece_minus hnumber (by simp)⟩
  · simp only [Code.integer, integerTree, Tree.signed, hn, if_false, decide_false]
    exact .inr ⟨by omega, trivial, hnumber⟩

/-- A double is printed as one lexeme, behind a minus sign if it has one. -/
theorem float_cases (strict : Bool) {x : Binary64} (hc : cx.float x = .ok code) :
    (x.isNegative = true ∧ x.isNaN = false ∧ (∃ l, code = [.symbol "-", l]) ∧
      Piece cx.target strict 11 code (floatTree x)) ∨
    ((x.isNegative = true → x.isNaN = true) ∧
      (∃ l, code = [l] ∧ (∀ s, l ≠ .symbol s) ∧ ∀ text, l = .number text → x.isFinite = true) ∧
      Piece cx.target strict 13 code (floatTree x)) := by
  have hword : ∀ {text : String}, text ∈ ["NaN", "Infinity"] →
      Piece cx.target strict 13 [.word text] (.name text) := fun htext => by
    have hall : ∀ w ∈ ["NaN", "Infinity"],
        isWord w = true ∧ w ∉ controlWords (.cFamily .standard) := by decide
    obtain ⟨hw, hno⟩ := hall _ htext
    exact .name (.inl rfl) hw (not_mem_controlWords_of_cFamily hno _)
  have hnumber : Piece cx.target strict 13 [.number x.magnitudeText] (.number x.magnitudeText) :=
    .number (isNumeral_magnitudeText x).number (isNumeral_magnitudeText x).last
  have hfinite : code = finiteFloat x → x.isFinite = true →
      (x.isNegative = true ∧ x.isNaN = false ∧ (∃ l, code = [.symbol "-", l]) ∧
        Piece cx.target strict 11 code (floatTree x)) ∨
      ((x.isNegative = true → x.isNaN = true) ∧
        (∃ l, code = [l] ∧ (∀ s, l ≠ .symbol s) ∧ ∀ text, l = .number text → x.isFinite = true) ∧
        Piece cx.target strict 13 code (floatTree x)) := by
    rintro rfl hx
    have hexponent : x.exponentField ≠ 2047 := by simpa [Binary64.isFinite] using hx
    have hnan : x.isNaN = false := by simp [Binary64.isNaN, hexponent]
    have hinf : x.isInfinite = false := by simp [Binary64.isInfinite, hexponent]
    cases hsign : x.isNegative with
    | true =>
        simp only [finiteFloat, floatTree, Tree.signed, hsign, hnan, hinf, if_true,
          Bool.false_eq_true,
          if_false]
        exact .inl ⟨trivial, trivial, ⟨_, rfl⟩, piece_minus hnumber (by simp)⟩
    | false =>
        simp only [finiteFloat, floatTree, Tree.signed, hsign, hnan, hinf, Bool.false_eq_true,
          if_false]
        exact .inr ⟨by simp, ⟨_, rfl, by simp, fun _ _ => hx⟩, hnumber⟩
  cases ht : cx.target with
  | cFamily d =>
      simp only [float, ht] at hc
      split_ifs at hc with hx
      · exact ht ▸ hfinite (Except.ok.inj hc).symm hx
      · simp [unsupported] at hc
  | actionScript =>
      rw [← ht]
      simp only [float, ht] at hc
      cases hnan : x.isNaN with
      | true =>
          simp only [hnan, if_true, Except.ok.injEq] at hc
          subst hc
          simp only [floatTree, hnan, if_true]
          exact .inr ⟨fun _ => trivial, ⟨_, rfl, by simp, by simp⟩, hword (by simp)⟩
      | false =>
          simp only [hnan, Bool.false_eq_true, if_false] at hc
          cases hinf : x.isInfinite with
          | true =>
              simp only [hinf, if_true, Except.ok.injEq] at hc
              subst hc
              cases hsign : x.isNegative with
              | true =>
                  simp only [floatTree, Tree.signed, hnan, hinf, hsign, if_true,
                    Bool.false_eq_true, if_false]
                  exact .inl ⟨trivial, trivial, ⟨_, rfl⟩, piece_minus (hword (by simp)) (by simp)⟩
              | false =>
                  simp only [floatTree, Tree.signed, hnan, hinf, hsign, if_true,
                    Bool.false_eq_true, if_false]
                  exact .inr ⟨by simp, ⟨_, rfl, by simp, by simp⟩, hword (by simp)⟩
          | false =>
              simp only [hinf, Bool.false_eq_true, if_false, Except.ok.injEq] at hc
              refine hnan ▸ hfinite hc.symm ?_
              simp only [Binary64.isNaN, Binary64.isInfinite, decide_eq_false_iff_not] at hnan hinf
              simp only [Binary64.isFinite, decide_eq_true_eq]
              tauto

/-- A number that is not below zero, literal or in place of a constant. -/
theorem reads_int {e : Expr} {n : Int64} (hnumber : cx.number? e = some (.int n))
    (htree : cx.tree e = integerTree n.toInt) (hn : ¬n < 0) :
    Reads cx strict e (.integer n.toInt) := by
  have hnonneg : 0 ≤ n := Int64.not_lt.mp hn
  rcases integer_cases strict n.toInt with ⟨hlt, -⟩ | ⟨-, hcode, hpiece⟩
  · exact absurd (Int64.lt_iff_toInt_lt.mpr hlt) hn
  · refine ⟨htree ▸ hpiece.mono ((grade_le cx e).trans (by decide)), ?_, ?_, ?_⟩
    · intro _ _ _ _
      simp [isBareNumber, hnumber, hnonneg]
    · simp [hcode]
    · simp [hcode]

theorem reads_float {e : Expr} {x : Binary64} (hnumber : cx.number? e = some (.float x))
    (htree : cx.tree e = floatTree x) (hc : cx.float x = .ok code) (hx : x.isBelowZero = false) :
    Reads cx strict e code := by
  rcases float_cases strict hc with ⟨hneg, hnan, ⟨l, rfl⟩, hpiece⟩ |
    ⟨-, ⟨l, rfl, hl, hfinite⟩, hpiece⟩
  · have hzero : x.isZero = true := by simpa [Binary64.isBelowZero, hneg, hnan] using hx
    have hminus : cx.isMinusZero e = true := by simp [isMinusZero, hnumber, hneg, hzero]
    refine ⟨?_, ?_, ?_, ?_⟩
    · rw [htree, grade, if_pos hminus]
      exact hpiece
    · intro _ _ _ _
      have hfield : x.exponentField = 0 ∧ x.fractionField = 0 := by
        simpa [Binary64.isZero] using hzero
      simp [isBareNumber, hnumber, hx, Binary64.isFinite, hfield]
    · intro _ _ _ _ _
      simp [hidesSign, hminus]
    · simp
  · refine ⟨htree ▸ hpiece.mono ((grade_le cx e).trans (by decide)), ?_, ?_, ?_⟩
    · intro _ _ text htext
      have : l = .number text := by simpa using htext
      simp [isBareNumber, hnumber, hx, hfinite text this]
    · rintro _ _ y hy (rfl | rfl) <;> exact absurd (Option.some.inj hy) (hl _)
    · intro _ _ y hy
      obtain rfl : l = y := Option.some.inj hy
      exact hl "&"

theorem exists_truth (cx : Context) (b : Bool) :
    ∃ l, cx.truth b = [l] ∧ l.Names (if b then "true" else "false") := by
  unfold truth
  cases cx.target with
  | actionScript => exact ⟨_, rfl, .inl rfl⟩
  | cFamily d => exact ⟨_, rfl, .inr ⟨_, rfl⟩⟩

/-- The words of truth values and of null start no statement. -/
theorem isWord_of_mem_literalWords (t : Target) {w : String}
    (h : w ∈ ["true", "false", "null", "NULL"]) : isWord w = true ∧ w ∉ controlWords t := by
  have hall : ∀ w ∈ ["true", "false", "null", "NULL"],
      isWord w = true ∧ w ∉ controlWords (.cFamily .standard) := by decide
  exact ⟨(hall w h).1, not_mem_controlWords_of_cFamily (hall w h).2 t⟩

theorem solid_truth (cx : Context) (b : Bool) :
    Solid cx strict 12 (cx.truth b) (truthTree b) := by
  obtain ⟨l, hcode, hl⟩ := exists_truth cx b
  obtain ⟨hword, hcontrol⟩ := isWord_of_mem_literalWords cx.target
    (w := if b then "true" else "false") (by cases b <;> decide)
  exact hcode ▸ .name hl hword hcontrol

theorem solid_text (contents : String) : Solid cx strict 12 [.quoted contents] (.text contents) :=
  ⟨(Piece.text contents).mono (by decide), by simp, by simp⟩

theorem printed_literal (value : Literal) (ty : Ty) : Printed cx strict (.literal value ty) := by
  intro code hc
  rw [Context.code, literal.eq_def] at hc
  cases value with
  | int n =>
      obtain rfl := Except.ok.inj hc
      by_cases hn : n < 0
      · have hprio : cx.target.priority (.literal (.int n) ty) = .prefixed := by
          cases cx.target <;> simp [Target.priority, Expr.priority, Literal.isBelowZero, hn]
        rcases integer_cases strict n.toInt with ⟨-, hcode, hpiece⟩ | ⟨hge, -⟩
        · refine ⟨?_, ?_, ?_, ?_⟩
          · simpa [tree, literalTree, grade, isMinusZero, number?, hprio, Priority.level]
              using hpiece
          · intro _ hle
            rw [hprio] at hle
            exact absurd hle (by decide)
          · intro _ _ _ _ _
            simp [operand, Operand.startsWithSign, hn]
          · simp [hcode]
        · have := Int64.lt_iff_toInt_lt.mp hn
          simp only [Int64.toInt_zero] at this
          omega
      · exact reads_int rfl rfl hn
  | float x =>
      cases hx : x.isBelowZero with
      | false => exact reads_float rfl rfl hc hx
      | true =>
          have hprio : cx.target.priority (.literal (.float x) ty) = .prefixed := by
            cases cx.target <;> simp [Target.priority, Expr.priority, Literal.isBelowZero, hx]
          simp only [Binary64.isBelowZero, Bool.and_eq_true, Bool.not_eq_true'] at hx
          rcases float_cases strict hc with ⟨-, -, ⟨l, rfl⟩, hpiece⟩ | ⟨hneg, -⟩
          · refine ⟨?_, ?_, ?_, by simp⟩
            · have hzero : cx.isMinusZero (.literal (.float x) ty) = false := by
                simp [isMinusZero, number?, hx]
              rw [grade, hzero, hprio]
              exact hpiece
            · intro _ hle
              rw [hprio] at hle
              exact absurd hle (by decide)
            · intro _ _ _ _ _
              simp [hidesSign, Binary64.isBelowZero, hx]
          · simp [hneg hx.1.1] at hx
  | bool b =>
      obtain rfl := Except.ok.inj hc
      exact (solid_truth cx b).reads (Nat.le_refl 12) rfl
  | str s =>
      obtain rfl := Except.ok.inj hc
      exact (solid_text s).reads (Nat.le_refl 12) rfl
  | null =>
      obtain rfl := Except.ok.inj hc
      obtain ⟨w, l, hcode, htree, hl, hw⟩ : ∃ w l, cx.null = [l] ∧ cx.nullTree = .name w ∧
          l.Names w ∧ w ∈ ["true", "false", "null", "NULL"] := by
        unfold null nullTree
        cases cx.target with
        | actionScript => exact ⟨_, _, rfl, rfl, .inl rfl, by decide⟩
        | cFamily d => exact ⟨_, _, rfl, rfl, .inr ⟨_, rfl⟩, by decide⟩
      obtain ⟨hword, hcontrol⟩ := isWord_of_mem_literalWords cx.target hw
      exact hcode ▸ (Solid.name hl hword hcontrol).reads (Nat.le_refl 12) htree

theorem enumOf_eq_ok {id : EnumId} {e : EnumDef} (h : cx.enumOf id = .ok e) :
    cx.program.enums[id.index.toNat]? = some e := by
  unfold enumOf Program.enumOf at h
  cases hfound : cx.program.enums[id.index.toNat]? with
  | none => simp [hfound, lookedUp] at h
  | some found => simpa [hfound, lookedUp] using h

theorem classOf_eq_ok {id : ClassId} {c : ClassDef} (h : cx.classOf id = .ok c) :
    cx.class? id = some c := by
  unfold classOf Program.classOf at h
  unfold class?
  cases hfound : cx.program.classes[id.index.toNat]? with
  | none => simp [hfound, lookedUp] at h
  | some found => simpa [hfound, lookedUp] using h

theorem solid_enumValue (hnamed : cx.program.Named cx.target) {id : EnumId} {index : UInt64}
    (hc : cx.enumValue id index = .ok code) : Solid cx strict 12 code (cx.enumTree id index) := by
  unfold Context.enumValue at hc
  obtain ⟨e, he, hc⟩ := Result.bind_eq_ok.mp hc
  have henum := enumOf_eq_ok he
  obtain ⟨hword, hreserved, hvalues⟩ := hnamed.enums e (List.mem_of_getElem? henum)
  split at hc
  · simp [unsupported] at hc
  case h_2 value hvalue =>
    obtain ⟨hupper, -⟩ := isWord_upperSnakeCase (hvalues value (List.mem_of_getElem? hvalue))
    cases ht : cx.target with
    | actionScript =>
        simp only [ht] at hc
        obtain rfl := Except.ok.inj hc
        have htree : cx.enumTree id index =
            .member (.name e.name) "." (upperSnakeCase value.name) := by
          simp only [enumTree, henum, hvalue, ht]
        have hname : Solid cx strict 12 [.word e.name] (.name e.name) :=
          .name (.inl rfl) hword (not_mem_controlWords hreserved)
        exact htree ▸ hname.member (.inl rfl) (.inl rfl) hupper
    | cFamily d =>
        simp only [ht] at hc
        obtain rfl := Except.ok.inj hc
        have htree : cx.enumTree id index =
            .name (e.name ++ "_" ++ upperSnakeCase value.name) := by
          simp only [enumTree, henum, hvalue, ht]
        have hlong : isWord (e.name ++ "_" ++ upperSnakeCase value.name) = true :=
          isWord_append (isWord_append hword (by decide)) (isWordChar_of_isWord hupper)
        have hcontrol := not_mem_controlWords_of_underscore
          (e.name ++ "_" ++ upperSnakeCase value.name) (by simp) cx.target
        exact htree ▸ .name (.inl rfl) hlong hcontrol

theorem printed_enumValue (hnamed : cx.program.Named cx.target) (id : EnumId) (index : UInt64)
    (ty : Ty) : Printed cx strict (.enumValue id index ty) := fun _ hc =>
  (solid_enumValue hnamed hc).reads (Nat.le_refl 12) rfl

/-- A constant that is no table. -/
theorem piece_scalar (strict : Bool) (hnamed : cx.program.Named cx.target) {value : ConstValue}
    (hvalue : ∀ items, value ≠ .array items) (hc : cx.constValue value = .ok code) :
    Piece cx.target strict 11 code (cx.valueTree value) := by
  cases value with
  | int n =>
      obtain rfl := Except.ok.inj hc
      rcases integer_cases strict n.toInt with ⟨-, -, h⟩ | ⟨-, -, h⟩
      · exact h
      · exact h.mono (by decide)
  | float x =>
      rcases float_cases strict hc with ⟨-, -, -, h⟩ | ⟨-, -, h⟩
      · exact h
      · exact h.mono (by decide)
  | bool b =>
      obtain rfl := Except.ok.inj hc
      exact (solid_truth cx b).piece.mono (by decide)
  | str s =>
      obtain rfl := Except.ok.inj hc
      exact (Piece.text s).mono (by decide)
  | enumValue id index => exact (solid_enumValue hnamed hc).piece.mono (by decide)
  | array items => exact absurd rfl (hvalue items)

mutual

/-- The value of a constant, as ActionScript prints it in expressions. -/
theorem piece_constValue (strict : Bool) (hnamed : cx.program.Named cx.target)
    (ht : cx.target = .actionScript) :
    ∀ {value : ConstValue} {code : Code}, cx.constValue value = .ok code →
      Piece cx.target strict 11 code (cx.valueTree value)
  | .int _, _, hc | .float _, _, hc | .bool _, _, hc | .str _, _, hc | .enumValue _ _, _, hc =>
    piece_scalar strict hnamed nofun hc
  | .array items, code, hc => by
    obtain ⟨codes, hcodes, hc⟩ := Result.bind_eq_ok.mp hc
    obtain ⟨pieces, hfst, hsnd, hpieces⟩ := pieces_constItems strict hnamed ht hcodes
    obtain rfl := Except.ok.inj hc
    rw [table, ht, valueTree, ← hfst, ← hsnd]
    exact (Piece.items fun p hp => ht ▸ hpieces p hp).mono (by decide)

theorem pieces_constItems (strict : Bool) (hnamed : cx.program.Named cx.target)
    (ht : cx.target = .actionScript) :
    ∀ {items : List ConstValue} {codes : List Code}, cx.constItems items = .ok codes →
      ∃ pieces : List (Code × Tree), pieces.map Prod.fst = codes ∧
        pieces.map Prod.snd = cx.valueTrees items ∧
        ∀ p ∈ pieces, Piece cx.target strict 0 p.1 p.2
  | [], codes, hc => by
    obtain rfl := Except.ok.inj hc
    exact ⟨[], rfl, rfl, by simp⟩
  | item :: rest, codes, hc => by
    obtain ⟨first, hfirst, hc⟩ := Result.bind_eq_ok.mp hc
    obtain ⟨others, hothers, hc⟩ := Result.bind_eq_ok.mp hc
    obtain rfl := Except.ok.inj hc
    obtain ⟨pieces, rfl, hsnd, hpieces⟩ := pieces_constItems strict hnamed ht hothers
    refine ⟨(first, cx.valueTree item) :: pieces, rfl, by simp [valueTrees, hsnd], ?_⟩
    exact List.forall_mem_cons.mpr
      ⟨(piece_constValue strict hnamed ht hfirst).mono (Nat.zero_le 11), hpieces⟩

end

theorem not_isType_actionScript (tree : Tree) : ¬tree.isType .actionScript := by
  cases tree <;> simp [Tree.isType, typeWords]

/-- A piece between parentheses in ActionScript, where nothing in parentheses is a type. -/
theorem reads_parenthesized {e : Expr} (ht : cx.target = .actionScript)
    (h : Piece cx.target strict 11 code (cx.tree e)) : Reads cx strict e code.parenthesized := by
  have hgroup : Piece cx.target strict 13 code.parenthesized (cx.tree e) :=
    (h.mono (Nat.zero_le 11)).group (ht ▸ not_isType_actionScript _)
  refine .of_piece hgroup (by decide) (fun _ x hx => ?_) (by simp [getLast?_parenthesized])
  obtain rfl := Option.some.inj hx
  decide

/-- A constant that ActionScript replaces by its value. -/
theorem reads_inlined (hnamed : cx.program.Named cx.target) (ht : cx.target = .actionScript)
    {owner : ClassId} {name : String} {ty : Ty} {k : ConstDef} {value : Code}
    (hk : cx.inlined? owner name = some k) (htree : cx.constTree owner name = cx.valueTree k.value)
    (hc : cx.constValue k.value = .ok value) :
    Reads cx strict (.const owner name ty)
      (if k.value.isBelowZero then value.parenthesized else value) := by
  have hnumber : cx.number? (.const owner name ty) = some k.value := by simp [number?, hk]
  have htree : cx.tree (.const owner name ty) = cx.valueTree k.value := htree
  split_ifs with hbelow
  · exact reads_parenthesized ht (htree ▸ piece_constValue strict hnamed ht hc)
  · generalize k.value = v at *
    cases v with
    | int n =>
        obtain rfl := Except.ok.inj hc
        exact reads_int hnumber htree (by simpa [ConstValue.isBelowZero] using hbelow)
    | float x =>
        exact reads_float hnumber htree hc (by simpa [ConstValue.isBelowZero] using hbelow)
    | bool b =>
        obtain rfl := Except.ok.inj hc
        exact (solid_truth cx b).reads (Nat.le_refl 12) htree
    | str s =>
        obtain rfl := Except.ok.inj hc
        exact (solid_text s).reads (Nat.le_refl 12) htree
    | enumValue id index => exact (solid_enumValue hnamed hc).reads (Nat.le_refl 12) htree
    | array items =>
        obtain ⟨codes, hcodes, hc⟩ := Result.bind_eq_ok.mp hc
        obtain ⟨pieces, rfl, hsnd, hpieces⟩ := pieces_constItems strict hnamed ht hcodes
        obtain rfl := Except.ok.inj hc
        have hitems := Piece.items hpieces
        rw [hsnd, ← show cx.tree (.const owner name ty) = .items (cx.valueTrees items) from htree]
          at hitems
        rw [table, ht]
        refine .of_piece hitems (by decide) (by simp) fun _ text => ?_
        rw [List.getLast?_append]
        simp

theorem solid_classPrefix (hnamed : cx.program.Named cx.target) {owner : ClassId} {c : ClassDef}
    {place : Code} {w : String} (hclass : cx.class? owner = some c)
    (hc : ActionScript.classPrefix cx owner = .ok place) (hw : isWord w = true)
    (hcontrol : w ∉ controlWords cx.target) :
    Solid cx strict 12 (place ++ [Lexeme.word w]) (cx.qualifiedTree owner c w) := by
  unfold ActionScript.classPrefix at hc
  unfold qualifiedTree
  split_ifs at hc ⊢ with hcurrent
  · obtain rfl := Except.ok.inj hc
    exact .name (.inl rfl) hw hcontrol
  · obtain ⟨c', hc', hc⟩ := Result.bind_eq_ok.mp hc
    obtain rfl : c' = c := Option.some.inj ((classOf_eq_ok hc').symm.trans hclass)
    obtain rfl := Except.ok.inj hc
    obtain ⟨hname, hreserved, -⟩ := hnamed.classes c' (List.mem_of_getElem? hclass)
    have hclass : Solid cx strict 12 [.word c'.name] (.name c'.name) :=
      .name (.inl rfl) hname (not_mem_controlWords hreserved)
    exact hclass.member (.inl rfl) (.inl rfl) hw

theorem printed_const (hnamed : cx.program.Named cx.target) (owner : ClassId) {name : String}
    (hname : isWord name = true) (ty : Ty) : Printed cx strict (.const owner name ty) := by
  intro code hc
  have hemitted : ∀ {c : ClassDef}, cx.class? owner = some c →
      isWord (((c.findConst name).map ConstDef.emittedName).getD name) = true := by
    intro c hclass
    obtain ⟨-, -, hconsts⟩ := hnamed.classes c (List.mem_of_getElem? hclass)
    cases hfind : c.findConst name with
    | none => exact hname
    | some k => exact hconsts k (List.mem_of_find?_eq_some hfind)
  rw [Context.code, Context.constant] at hc
  cases ht : cx.target with
  | actionScript =>
      simp only [ht] at hc
      obtain ⟨c, hcls, hc⟩ := Result.bind_eq_ok.mp hc
      have hclass := classOf_eq_ok hcls
      have hinlined : cx.inlined? owner name =
          c.consts.find? fun k => k.name = name && k.visibility ≠ .exported := by
        simp [inlined?, ht, hclass]
      split at hc
      case h_1 k hk =>
        obtain ⟨value, hvalue, hc⟩ := Result.bind_eq_ok.mp hc
        obtain rfl := Except.ok.inj hc
        refine reads_inlined hnamed ht (hinlined.trans hk) ?_ hvalue
        simp only [constTree, hclass, ht, hinlined.trans hk]
      case h_2 hk =>
        obtain ⟨place, hplace, hc⟩ := Result.bind_eq_ok.mp hc
        obtain rfl := Except.ok.inj hc
        obtain ⟨hupper, hlower⟩ := isWord_upperSnakeCase (hemitted hclass)
        refine (solid_classPrefix hnamed hclass hplace hupper
          (not_mem_controlWords_of_isLower hlower _)).reads (Nat.le_refl 12) ?_
        simp only [tree, constTree, hclass, ht, hinlined.trans hk]
  | cFamily d =>
      simp only [ht] at hc
      obtain ⟨c, hcls, hc⟩ := Result.bind_eq_ok.mp hc
      obtain rfl := Except.ok.inj hc
      have hclass := classOf_eq_ok hcls
      obtain ⟨hword, -, -⟩ := hnamed.classes c (List.mem_of_getElem? hclass)
      obtain ⟨hupper, -⟩ := isWord_upperSnakeCase (hemitted hclass)
      refine (Solid.name (.inl rfl) ?_ (not_mem_controlWords_of_underscore _ ?_ _)).reads
        (Nat.le_refl 12) ?_
      · exact isWord_append (isWord_append hword (by decide)) (isWordChar_of_isWord hupper)
      · simp [CFamily.constName]
      · simp only [tree, constTree, hclass, ht]

end Context

end Emitter
