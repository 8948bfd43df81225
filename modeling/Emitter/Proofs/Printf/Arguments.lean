import Emitter.Proofs.Printf.Formats
import Emitter.Proofs.Expression.Shown

/-!
# What the library is given

The C standard defines a conversion of `printf` only for a value of the type that the conversion
asks for, and `abs` takes an `int`. The letter of a conversion comes from the hole of an
interpolated string, but the cast of a value from the type of the value alone. A call is defined
exactly if every letter suits the type it meets.
-/

namespace Emitter.Program

/-- The values of an integer type that fit into an `int`. -/
def IntKind.Holds (n : Int32) : IntKind → Prop
  | .sbyte => -128 ≤ n ∧ n ≤ 127
  | .byte => 0 ≤ n ∧ n ≤ 255
  | .short => -32768 ≤ n ∧ n ≤ 32767
  | .ushort => 0 ≤ n ∧ n ≤ 65535
  | .int => True
  | .long => False

/-- Every value of the type is passed as an `int`. -/
def Ty.isNarrow : Ty → Bool
  | bool | enumeration _ => true
  | int kind => decide (kind ≠ .long)
  | _ => false

end Emitter.Program

namespace Emitter.CFamily

open Layout Program

variable {cx : Context}

/-- A value that is passed, by the type it has after the default argument promotions. -/
inductive Passed
  | int (value : Int32)
  | longLong (value : Int64)
  | double
  | text
  | other
  deriving DecidableEq

/-- The values that an expression of the type is passed as. A type of 64 bits is cast to `long long`
where it is printed. -/
inductive Passes : Ty → Passed → Prop
  | bool (b : Bool) : Passes .bool (.int (if b then 1 else 0))
  | enumeration (id : EnumId) (n : Int32) : Passes (.enumeration id) (.int n)
  | int {kind : IntKind} {n : Int32} (h : kind.Holds n) : Passes (.int kind) (.int n)
  | long (n : Int64) : Passes (.int .long) (.longLong n)
  | float (kind : FloatKind) : Passes (.float kind) .double
  | string : Passes .string .text
  | other {ty : Ty} (h : ty.isNarrow = false ∧ ty.isInteger = false ∧ ty.isFloating = false ∧
      ty.isString = false) : Passes ty .other

/-- The value is an `int` that an unsigned conversion takes as well: where the two types hold the
same value, either may be passed for the other. -/
def Passed.IsUnsigned (p : Passed) : Prop := ∃ n, p = .int n ∧ 0 ≤ n

/-- What arrives says what kind of type it had. -/
theorem Passes.kind {ty : Ty} {p : Passed} (h : Passes ty p) :
    ((∃ n, p = .int n) ↔ ty.isNarrow = true) ∧ ((∃ n, p = .longLong n) ↔ ty = .int .long) ∧
      (p = .double ↔ ty.isFloating = true) ∧ (p = .text ↔ ty = .string) := by
  cases h with
  | @int kind n h => cases kind <;> simp_all [Ty.isNarrow, Ty.isFloating, IntKind.Holds]
  | other h => cases ty <;> simp_all [Ty.isNarrow, Ty.isInteger, Ty.isFloating, Ty.isString]
  | _ => simp [Ty.isNarrow, Ty.isFloating]

namespace Directive

/-- The letters of numbers. -/
def numeric : List Char := ['d', 'i', 'o', 'u', 'x', 'X', 'f', 'F', 'e', 'E', 'g', 'G', 'a', 'A']

/-- The letter allows the flags and the precision. -/
structure IsComplete (d : Directive) : Prop where
  zero : '0' ∈ d.flags → d.letter ∈ numeric
  alternative : '#' ∈ d.flags → d.letter ∈ ['o', 'x', 'X', 'f', 'F', 'e', 'E', 'g', 'G', 'a', 'A']
  precision : d.precision.isSome → d.letter ∈ 's' :: numeric

/-- The conversion is defined for the value. -/
def Takes (d : Directive) (p : Passed) : Prop :=
  d.IsComplete ∧
    match p with
    | .int n => d.modifier = [] ∧
        (d.letter ∈ ['d', 'i'] ∨ d.letter ∈ ['o', 'u', 'x', 'X'] ∧ 0 ≤ n)
    | .longLong n => d.modifier = ['l', 'l'] ∧
        (d.letter ∈ ['d', 'i'] ∨ d.letter ∈ ['o', 'u', 'x', 'X'] ∧ 0 ≤ n)
    | .double => d.modifier = [] ∧ d.letter ∈ ['f', 'F', 'e', 'E', 'g', 'G', 'a', 'A']
    | .text => d.modifier = [] ∧ d.letter = 's'
    | .other => False

end Directive

/-- A call of the library with the expressions that are passed. -/
inductive LibraryCall
  | printf (format : String) (values : List Expr)
  | abs (value : Expr)
  | fabs (value : Expr)

/-- The expression as an argument of `printf`. -/
def IsArgument (cx : Context) (e : Expr) (code : Code) : Prop :=
  if e.ty = .int .long then
    ∃ inner, (cx.operand e).atLeast .prefixed = .ok inner ∧
      code = Code.parenthesized [.word "long", .gap, .word "long"] ++ .gap :: inner
  else (cx.operand e).atLeast .argument = .ok code

namespace LibraryCall

def values : LibraryCall → List Expr
  | printf _ values => values
  | abs value | fabs value => [value]

/-- The code of a call. -/
def IsPrinted (cx : Context) : LibraryCall → Code → Prop
  | printf format values, code => ∃ args, List.Forall₂ (IsArgument cx) values args ∧
      code = .supplied "printf" (.header .stdio) ::
        Code.parenthesized (Code.commaSeparated ([.quoted format] :: args))
  | abs value, code => ∃ arg, (cx.operand value).atLeast .argument = .ok arg ∧
      code = .supplied "abs" (.header .stdlib) :: Code.parenthesized arg
  | fabs value, code => ∃ arg, (cx.operand value).atLeast .argument = .ok arg ∧
      code = .supplied "fabs" (.header .math) :: Code.parenthesized arg

/-- The library defines the call for the values that arrive: each conversion of a format takes the
value at its place, and a parameter holds what is passed for it. -/
def IsDefinedOn : LibraryCall → List Passed → Prop
  | printf format _, passed => ∃ ds, directives format = some ds ∧
      List.Forall₂ Directive.Takes ds passed
  | abs _, passed => ∃ n, passed = [.int n]
  | fabs _, passed => passed = [.double]

end LibraryCall

/-! A conversion takes a value if the letter of the hole suits the type of the value. The printer
looks at the two apart from each other. -/

/-- The hole's letter suits a value of the type. A type without a letter gets its own, which only a
text of width zero does not go with. -/
def Suits (hole : Hole) (ty : Ty) (p : Passed) : Prop :=
  match hole.format with
  | none => ty = .string → hole.width ≠ some 0
  | some c =>
    if c ∈ ['d', 'D'] then ty.isNarrow = true
    else if c ∈ ['x', 'X'] then ty.isNarrow = true ∧ p.IsUnsigned
    else ty.isFloating = true

theorem Conversion.mem_flags {c : Conversion} {flag : Char} :
    flag ∈ c.flags ↔ ∃ n, c.width = some n ∧ (n < 0 ∧ flag = '-' ∨ n = 0 ∧ flag = '0') := by
  cases hw : c.width with
  | none => simp [Conversion.flags, hw]
  | some n =>
      simp only [Conversion.flags, hw, Option.elim_some, Option.some.injEq, exists_eq_left']
      split_ifs with hneg hzero
      · have hne : n ≠ 0 := by
          rintro rfl
          exact absurd hneg (by decide)
        simp [hneg, hne]
      · simp [hzero]
      · simp [hneg, hzero]

/-- A printed conversion has a letter that allows its flags and its precision, except for a text of
width zero. -/
theorem Conversion.isComplete_iff (c : Conversion) {modifier : List Char} {letter : Char}
    (h : (modifier, letter) ∈ specifiers) :
    (c.directive modifier letter).IsComplete ↔ (letter = 's' → c.width ≠ some 0) := by
  have hletters : ∀ s ∈ specifiers, s.2 ∈ 's' :: Directive.numeric ∧
      (s.2 = 's' ↔ s.2 ∉ Directive.numeric) := by decide
  obtain ⟨hmem, hs⟩ := hletters _ h
  constructor
  · rintro hcomplete hletter hwidth
    refine hs.mp hletter (hcomplete.zero (mem_flags.mpr ⟨0, hwidth, .inr ⟨rfl, rfl⟩⟩))
  · intro hwidth
    refine ⟨fun hzero => ?_, fun halternative => ?_, fun _ => hmem⟩
    · obtain ⟨n, hn, hcase⟩ := mem_flags.mp hzero
      obtain rfl : n = 0 := by simpa using hcase
      by_contra hnumeric
      exact hwidth (hs.mpr hnumeric) hn
    · obtain ⟨n, hn, hcase⟩ := mem_flags.mp halternative
      simp at hcase

namespace Conversion

variable (c : Conversion) {letter : Char} {p : Passed}

theorem takes_int : (c.directive [] 'd').Takes p ↔ ∃ n, p = .int n := by
  have hcomplete := c.isComplete_iff (show ([], 'd') ∈ specifiers by decide)
  cases p <;> simp [Directive.Takes, hcomplete]

theorem takes_longLong : (c.directive ['l', 'l'] 'd').Takes p ↔ ∃ n, p = .longLong n := by
  have hcomplete := c.isComplete_iff (show (['l', 'l'], 'd') ∈ specifiers by decide)
  cases p <;> simp [Directive.Takes, hcomplete]

theorem takes_unsigned (h : letter ∈ ['x', 'X']) :
    (c.directive [] letter).Takes p ↔ p.IsUnsigned := by
  have hall : ∀ l ∈ ['x', 'X'], ([], l) ∈ specifiers ∧ l ≠ 's' ∧ l ∉ ['d', 'i'] ∧
      l ∈ ['o', 'u', 'x', 'X'] ∧ l ∉ ['f', 'F', 'e', 'E', 'g', 'G', 'a', 'A'] := by decide
  obtain ⟨hmem, hs, hsigned, hunsigned, hfloating⟩ := hall letter h
  have hcomplete := c.isComplete_iff hmem
  cases p <;>
    simp [Directive.Takes, hcomplete, hs, hsigned, hunsigned, hfloating, Passed.IsUnsigned,
      -List.mem_cons]

theorem takes_floating (h : letter ∈ ['f', 'e', 'E', 'g', 'G']) :
    (c.directive [] letter).Takes p ↔ p = .double := by
  have hall : ∀ l ∈ ['f', 'e', 'E', 'g', 'G'], ([], l) ∈ specifiers ∧ l ≠ 's' ∧ l ∉ ['d', 'i'] ∧
      l ∉ ['o', 'u', 'x', 'X'] ∧ l ∈ ['f', 'F', 'e', 'E', 'g', 'G', 'a', 'A'] := by decide
  obtain ⟨hmem, hs, hsigned, hunsigned, hfloating⟩ := hall letter h
  have hcomplete := c.isComplete_iff hmem
  cases p <;>
    simp [Directive.Takes, hcomplete, hs, hsigned, hunsigned, hfloating, -List.mem_cons]

theorem takes_text : (c.directive [] 's').Takes p ↔ c.width ≠ some 0 ∧ p = .text := by
  have hcomplete := c.isComplete_iff (show ([], 's') ∈ specifiers by decide)
  cases p <;> simp [Directive.Takes, hcomplete]

end Conversion

/-- A letter of the hole, or else the one of the type, is defined for the values it suits. -/
theorem takes_iff {hole : Hole} {ty : Ty} {c : Conversion}
    (hc : conversion cx .standard hole ty = .ok c) :
    ∃ modifier letter, (modifier, letter) ∈ Conversion.specifiers ∧
      c.letters.toList = modifier ++ [letter] ∧
      ∀ p, Passes ty p → ((c.directive modifier letter).Takes p ↔ Suits hole ty p) := by
  obtain ⟨letters, hletters, hc⟩ := Result.bind_eq_ok.mp hc
  obtain rfl := Except.ok.inj hc
  unfold conversionLetters at hletters
  unfold Suits
  cases hformat : hole.format with
  | some l =>
      simp only [hformat] at hletters
      split_ifs at hletters with hsame hfixed hint
      · obtain rfl := Except.ok.inj hletters
        have hplain : ∀ l ∈ ['x', 'X', 'e', 'E', 'g', 'G'], ([], l) ∈ Conversion.specifiers ∧
            l ∉ ['d', 'D'] ∧ (l ∈ ['x', 'X'] ∨ l ∉ ['x', 'X'] ∧ l ∈ ['f', 'e', 'E', 'g', 'G']) := by
          decide
        obtain ⟨hmem, hsigned, hcase⟩ := hplain l hsame
        refine ⟨[], l, hmem, by simp [Char.toString], fun p hp => ?_⟩
        rcases hcase with hunsigned | ⟨hunsigned, hfloating⟩
        · simp only [Conversion.takes_unsigned _ hunsigned, if_neg hsigned, if_pos hunsigned]
          exact ⟨fun h => ⟨hp.kind.1.mp (h.imp fun _ => And.left), h⟩, And.right⟩
        · simp only [Conversion.takes_floating _ hfloating, if_neg hsigned, if_neg hunsigned]
          exact hp.kind.2.2.1
      · obtain rfl := Except.ok.inj hletters
        refine ⟨[], 'f', by decide, by simp, fun p hp => ?_⟩
        have hletter : l ∉ ['d', 'D'] ∧ l ∉ ['x', 'X'] := by
          rcases hfixed with rfl | rfl <;> decide
        simp only [Conversion.takes_floating _ (show 'f' ∈ _ by decide), if_neg hletter.1,
          if_neg hletter.2]
        exact hp.kind.2.2.1
      · obtain rfl := Except.ok.inj hletters
        refine ⟨[], 'd', by decide, by simp, fun p hp => ?_⟩
        have hletter : l ∈ ['d', 'D'] := by simpa using hint
        simp only [Conversion.takes_int, if_pos hletter]
        exact hp.kind.1
      · simp [Context.unsupported] at hletters
  | none =>
      simp only [hformat] at hletters
      have hnarrow : ty.isNarrow = true → ty ≠ .string → letters = "d" →
          ∃ modifier letter, (modifier, letter) ∈ Conversion.specifiers ∧
            letters.toList = modifier ++ [letter] ∧ ∀ p, Passes ty p →
              ((Conversion.directive ⟨hole.width, hole.precision, letters⟩
                  modifier letter).Takes p ↔
                (ty = .string → hole.width ≠ some 0)) := by
        rintro hnarrow hstring rfl
        refine ⟨[], 'd', by decide, by simp, fun p hp => ?_⟩
        rw [Conversion.takes_int, hp.kind.1]
        exact ⟨fun _ h => absurd h hstring, fun _ => hnarrow⟩
      cases ty with
      | int kind =>
          by_cases hkind : kind = .long
          · subst hkind
            obtain rfl := Except.ok.inj hletters
            refine ⟨['l', 'l'], 'd', by decide, by simp [Dialect.longConversion], fun p hp => ?_⟩
            rw [Conversion.takes_longLong, hp.kind.2.1]
            simp
          · refine hnarrow (by simp [Ty.isNarrow, hkind]) (by simp) ?_
            cases kind <;> first | exact absurd rfl hkind | exact (Except.ok.inj hletters).symm
      | bool => exact hnarrow rfl (by simp) (Except.ok.inj hletters).symm
      | enumeration id => exact hnarrow rfl (by simp) (Except.ok.inj hletters).symm
      | float kind =>
          obtain rfl := Except.ok.inj hletters
          refine ⟨[], 'g', by decide, by simp, fun p hp => ?_⟩
          rw [Conversion.takes_floating _ (by decide), hp.kind.2.2.1]
          simp [Ty.isFloating]
      | string =>
          obtain rfl := Except.ok.inj hletters
          refine ⟨[], 's', by decide, by simp, fun p hp => ?_⟩
          rw [Conversion.takes_text, hp.kind.2.2.2]
          simp
      | _ => simp [Context.unmappedType] at hletters

/-- The characters hold these conversions and leave none open. -/
def Gives (cs : List Char) (ds : List Directive) : Prop :=
  ∀ rest, directivesFrom none (cs ++ rest) = (directivesFrom none rest).map (ds ++ ·)

namespace Gives

theorem append {cs cs' : List Char} {ds ds' : List Directive} (h : Gives cs ds)
    (h' : Gives cs' ds') : Gives (cs ++ cs') (ds ++ ds') := by
  intro rest
  rw [List.append_assoc, h, h']
  simp [Option.map_map, Function.comp_def]

theorem text (text : String) : Gives (formatText text).toList [] := fun rest => by
  simp [directivesFrom_formatText]

theorem conversion (c : Conversion) {modifier : List Char} {letter : Char}
    (h : (modifier, letter) ∈ Conversion.specifiers)
    (hletters : c.letters.toList = modifier ++ [letter]) :
    Gives c.text.toList [c.directive modifier letter] := fun rest => by
  simp [c.directivesFrom_text h hletters]

theorem directives_eq {format : String} {ds : List Directive} (h : Gives format.toList ds) :
    directives format = some ds := by
  simpa [directives, directivesFrom] using h []

end Gives

/-- The conversion is defined for exactly the values of the part's argument that its hole suits. -/
def Agrees (part : Part) (d : Directive) : Prop :=
  ∀ p, Passes part.arg.ty p → (d.Takes p ↔ Suits part.hole part.arg.ty p)

theorem takes_iff_of_agrees {parts : List Part} {ds : List Directive} {passed : List Passed}
    (h : List.Forall₂ Agrees parts ds)
    (hpassed : List.Forall₂ (fun part p => Passes part.arg.ty p) parts passed) :
    List.Forall₂ Directive.Takes ds passed ↔
      List.Forall₂ (fun part p => Suits part.hole part.arg.ty p) parts passed := by
  induction h generalizing passed with
  | nil =>
      cases hpassed
      simp
  | cons hfirst _ ih =>
      cases hpassed with
      | cons hp hrest => simp only [List.forall₂_cons, hfirst _ hp, ih hrest]

theorem exists_holeFormats {parts : List Part} {formats : String}
    (hc : holeFormats cx .standard (cx.holes parts) = .ok formats) :
    ∃ ds, Gives formats.toList ds ∧ List.Forall₂ Agrees parts ds := by
  obtain ⟨texts, htexts, hjoin⟩ := Result.bind_eq_ok.mp hc
  obtain rfl := Except.ok.inj hjoin
  rw [Context.holes_eq, List.mapM_map] at htexts
  have hall := Result.forall₂_of_mapM_eq_ok htexts
  clear hc hjoin htexts
  induction hall with
  | nil => exact ⟨[], fun rest => by simp, .nil⟩
  | @cons part text rest others hfirst _ ih =>
      obtain ⟨c, hconversion, htext⟩ := Result.bind_eq_ok.mp hfirst
      obtain rfl := Except.ok.inj htext
      obtain ⟨modifier, letter, hmem, hletters, htakes⟩ := takes_iff hconversion
      obtain ⟨ds, hgives, hagrees⟩ := ih
      refine ⟨c.directive modifier letter :: ds, ?_, .cons htakes hagrees⟩
      simpa [String.join_cons] using
        (Gives.text part.hole.before).append ((Gives.conversion c hmem hletters).append hgives)

theorem isPrinted_printf {format : String} {es : List Expr} {code : Code}
    (hc : printfCall .standard format (es.map cx.operand) = .ok code) :
    (LibraryCall.printf format es).IsPrinted cx code := by
  obtain ⟨args, hargs, hc⟩ := Result.bind_eq_ok.mp hc
  obtain rfl := Except.ok.inj hc
  rw [List.mapM_map] at hargs
  refine ⟨args, (Result.forall₂_of_mapM_eq_ok hargs).imp fun e arg harg => ?_, rfl⟩
  unfold IsArgument
  unfold printedValue at harg
  simp only [Function.comp_apply, Dialect.longCast] at harg
  change (if e.ty = .int .long then _ else _) = _ at harg
  split_ifs at harg ⊢ with hlong
  · obtain ⟨inner, hinner, harg⟩ := Result.bind_eq_ok.mp harg
    exact ⟨inner, hinner, (Except.ok.inj harg).symm⟩
  · exact harg

/-- The values that a call of a printing method passes, each with its hole: those of an interpolated
string, or a single one without a format of its own. -/
def printedParts : List Expr → List Part
  | [.interpolated parts _ _] => parts
  | [.literal (.str _) _] => []
  | args => args.map (.mk plainHole)

/-- The values that a call passes. -/
def passedParts (m : BuiltinMethod) (args : List Expr) : List Part :=
  if m = .mathAbs then args.map (.mk plainHole) else printedParts args

/-- The value suits its place in a call. An absolute value is taken of doubles and of what fits into
an `int`. -/
def SuitsCall (m : BuiltinMethod) (part : Part) (p : Passed) : Prop :=
  if m = .mathAbs then part.arg.ty.isFloating = true ∨ part.arg.ty.isNarrow = true
  else Suits part.hole part.arg.ty p

/-- What a printed call of the library passes, and when the library defines it. -/
structure IsCallOf (cx : Context) (m : BuiltinMethod) (args : List Expr) (code : Code)
    (call : LibraryCall) : Prop where
  printed : call.IsPrinted cx code
  values : call.values = (passedParts m args).map Part.arg
  defined : ∀ passed,
    List.Forall₂ (fun part p => Passes part.arg.ty p) (passedParts m args) passed →
      (call.IsDefinedOn passed ↔ List.Forall₂ (SuitsCall m) (passedParts m args) passed)

/-- A format with its values. -/
theorem isCallOf_printf {m : BuiltinMethod} (args : List Expr) {format : String}
    {ds : List Directive} {code : Code} (hm : m ≠ .mathAbs)
    (hc : printfCall .standard format
      (((printedParts args).map Part.arg).map cx.operand) = .ok code)
    (hgives : Gives format.toList ds) (hagrees : List.Forall₂ Agrees (printedParts args) ds) :
    IsCallOf cx m args code (.printf format ((printedParts args).map Part.arg)) where
  printed := isPrinted_printf hc
  values := by rw [passedParts, if_neg hm]; rfl
  defined passed hpassed := by
    rw [passedParts, if_neg hm] at hpassed ⊢
    have hsuits : SuitsCall m = fun part p => Suits part.hole part.arg.ty p := by
      funext part p
      rw [SuitsCall, if_neg hm]
    rw [hsuits, ← takes_iff_of_agrees hagrees hpassed]
    simp [LibraryCall.IsDefinedOn, hgives.directives_eq]

theorem exists_print {m : BuiltinMethod} {args : List Expr} {lineEnd : String} {code : Code}
    (hm : m ≠ .mathAbs) (hend : Gives lineEnd.toList [])
    (hc : print cx .standard lineEnd (cx.shown args) = .ok code) :
    ∃ call, IsCallOf cx m args code call := by
  rcases args with _ | ⟨e, _ | ⟨second, rest⟩⟩
  · exact ⟨_, isCallOf_printf [] hm hc hend .nil⟩
  · rcases shown_singleton cx e with ⟨parts, suffix, ty, rfl⟩ | ⟨hshown, -⟩
    · obtain ⟨formats, hformats, hc⟩ := Result.bind_eq_ok.mp hc
      obtain ⟨ds, hgives, hagrees⟩ := exists_holeFormats hformats
      have hvalues : (cx.holes parts).map Prod.snd = (parts.map Part.arg).map cx.operand := by
        simp [Context.holes_eq, Function.comp_def]
      have hformat : Gives (formats ++ formatText suffix ++ lineEnd).toList ds := by
        simpa using (hgives.append (Gives.text suffix)).append hend
      exact ⟨_, isCallOf_printf [.interpolated parts suffix ty] hm (hvalues ▸ hc) hformat hagrees⟩
    · rw [hshown] at hc
      simp only [print] at hc
      split at hc
      case h_1 text ty hliteral =>
        obtain rfl : e = .literal (.str text) ty := hliteral
        have hformat : Gives (formatText text ++ lineEnd).toList [] := by
          simpa using (Gives.text text).append hend
        exact ⟨_, isCallOf_printf [.literal (.str text) ty] hm hc hformat .nil⟩
      case h_2 hvalue =>
        obtain ⟨c, hconversion, hc⟩ := Result.bind_eq_ok.mp hc
        obtain ⟨modifier, letter, hmem, hletters, htakes⟩ := takes_iff hconversion
        have hparts : printedParts [e] = [.mk plainHole e] := by
          cases e with
          | interpolated => simp [Context.shown] at hshown
          | literal value ty =>
              cases value with
              | str text => exact absurd rfl (hvalue text ty)
              | _ => rfl
          | _ => rfl
        have hformat : Gives (c.text ++ lineEnd).toList [c.directive modifier letter] := by
          simpa using (Gives.conversion c hmem hletters).append hend
        refine ⟨_, isCallOf_printf [e] hm ?_ hformat ?_⟩
        · rw [hparts]
          exact hc
        · rw [hparts]
          exact .cons htakes .nil
  · simp [print_many, Context.unsupported] at hc

/-- An absolute value, whose function the type of the argument chooses. -/
theorem exists_absolute {e : Expr} {code : Code}
    (hc : builtinCall cx .standard none .mathAbs [cx.operand e] = .ok code) :
    ∃ call, IsCallOf cx .mathAbs [e] code call := by
  obtain ⟨arguments, harguments, hc⟩ := Result.bind_eq_ok.mp hc
  obtain rfl := Except.ok.inj hc
  obtain ⟨args, hargs, harguments⟩ := Result.bind_eq_ok.mp harguments
  obtain rfl := Except.ok.inj harguments
  obtain ⟨arg, rest, harg, hrest, rfl⟩ :=
    List.forall₂_cons_left_iff.mp (Result.forall₂_of_mapM_eq_ok hargs)
  obtain rfl := List.forall₂_nil_left_iff.mp hrest
  have hone : Code.commaSeparated [arg] = arg := by simp [Code.commaSeparated]
  have hsingle : ∀ {passed : List Passed}, List.Forall₂ (fun part p => Passes part.arg.ty p)
      (passedParts .mathAbs [e]) passed → ∃ p, Passes e.ty p ∧ passed = [p] := by
    intro passed hpassed
    obtain ⟨p, others, hp, hothers, rfl⟩ := List.forall₂_cons_left_iff.mp hpassed
    obtain rfl := List.forall₂_nil_left_iff.mp hothers
    exact ⟨p, hp, rfl⟩
  rw [hone]
  by_cases hfloat : e.ty.isFloating = true
  · refine ⟨.fabs e, ⟨arg, harg, by simp [Context.operand, hfloat]⟩, rfl, fun passed hpassed => ?_⟩
    obtain ⟨p, hp, rfl⟩ := hsingle hpassed
    simp [LibraryCall.IsDefinedOn, passedParts, SuitsCall, Part.arg, hp.kind.2.2.1, hfloat]
  · refine ⟨.abs e, ⟨arg, harg, by simp [Context.operand, hfloat]⟩, rfl, fun passed hpassed => ?_⟩
    obtain ⟨p, hp, rfl⟩ := hsingle hpassed
    simp [LibraryCall.IsDefinedOn, passedParts, SuitsCall, Part.arg, hp.kind.1, hfloat]

/-- **Defined calls.** A printed call that writes to the console or takes an absolute value is one
of `printf`, `abs` or `fabs`. Its format has one conversion for each value that it passes, and the
library defines the call exactly for the values that suit their places. -/
theorem exists_isCallOf (ht : cx.target = .cFamily .standard) {receiver : Option Expr}
    {m : BuiltinMethod} {args : List Expr} {ty : Ty} {code : Code}
    (hm : m ∈ [.consoleWrite, .consoleWriteLine, .mathAbs])
    (hc : cx.code (.call receiver (.builtin m) args ty) = .ok code) :
    ∃ call, IsCallOf cx m args code call := by
  have hline : Gives "\n".toList [] := fun rest => by simp [directivesFrom]
  have hnone : Gives "".toList [] := fun rest => by simp
  have hprint : ∀ {m' : BuiltinMethod} {lineEnd : String}, m ≠ .mathAbs → Gives lineEnd.toList [] →
      printCall cx .standard (receiver.map cx.operand) m' lineEnd (cx.shown args) = .ok code →
        ∃ call, IsCallOf cx m args code call := by
    intro m' lineEnd hm hend hc
    cases receiver with
    | none => exact exists_print hm hend hc
    | some obj => simp [printCall, Context.unsupported] at hc
  rw [code_builtinCall] at hc
  simp only [ht] at hc
  split_ifs at hc with hwrite hwriteLine
  · exact hprint (by simp [hwrite]) hnone hc
  · exact hprint (by simp [hwriteLine]) hline hc
  · obtain rfl : m = .mathAbs := by simpa [hwrite, hwriteLine] using hm
    rcases receiver with _ | obj
    · rcases args with _ | ⟨e, _ | ⟨second, rest⟩⟩
      · simp [builtinCall, Context.unsupported] at hc
      · exact exists_absolute hc
      · simp [builtinCall, Context.unsupported] at hc
    · simp [builtinCall, Context.unsupported] at hc

/-- A number in hexadecimal and a text, with a percent sign in front of the end of the line. -/
theorem exists_isCallOf_hexadecimal :
    let cx : Context := ⟨.empty, .cFamily .standard, none⟩
    let count : Part := .mk ⟨"n=", some 3, some 'x', none⟩ (.var "n" (.int .int))
    let name : Part := .mk ⟨" of ", none, none, none⟩ (.var "s" .string)
    let args : List Expr := [.interpolated [count, name] "%" .string]
    ∃ code call, cx.code (.call none (.builtin .consoleWriteLine) args .void) = .ok code ∧
      code.text = "printf(\"n=%3x of %s%%\\n\", n, s)" ∧
      IsCallOf cx .consoleWriteLine args code call ∧ call.IsDefinedOn [.int 10, .text] := by
  intro cx count name args
  have hcode : cx.code (.call none (.builtin .consoleWriteLine) args .void) = .ok _ := rfl
  obtain ⟨call, hcall⟩ :=
    exists_isCallOf (rfl : cx.target = .cFamily .standard) (by decide) hcode
  refine ⟨_, call, hcode, by decide, hcall, (hcall.defined _ ?_).mpr ?_⟩
  · exact .cons (.int trivial) (.cons .string .nil)
  · refine .cons ⟨rfl, 10, rfl, by decide⟩ (.cons (fun _ => ?_) .nil)
    simp [Part.hole]

/-- A 64-bit integer with the format letter of decimal numbers is cast to `long long`, and its
conversion asks for an `int`. -/
theorem not_isDefinedOn_decimal_long :
    let cx : Context := ⟨.empty, .cFamily .standard, none⟩
    let x : Expr := .var "x" (.int .long)
    let shown : Expr := .interpolated [.mk ⟨"", none, some 'd', none⟩ x] "" .string
    ∃ code, cx.code (.call none (.builtin .consoleWrite) [shown] .void) = .ok code ∧
      code.text = "printf(\"%d\", (long long) x)" ∧
      (LibraryCall.printf "%d" [x]).IsPrinted cx code ∧
      ∀ n, Passes x.ty (.longLong n) ∧
        ¬(LibraryCall.printf "%d" [x]).IsDefinedOn [.longLong n] := by
  intro cx x shown
  refine ⟨_, rfl, by decide, ⟨[_], .cons ?_ .nil, rfl⟩, fun n => ⟨.long n, ?_⟩⟩
  · exact ⟨_, rfl, rfl⟩
  · rintro ⟨ds, hds, htakes⟩
    obtain rfl : [⟨[], [], none, [], 'd'⟩] = ds := Option.some.inj (Eq.trans (by decide) hds)
    simp [Directive.Takes] at htakes

end Emitter.CFamily
