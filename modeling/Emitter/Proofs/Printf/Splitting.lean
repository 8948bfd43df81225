import Emitter.Proofs.Json.Numerals
import Emitter.Proofs.Printf.Arguments

/-!
# Formats taken apart

What a format says is behind two encodings: the literal in the program text, with its escapes, and
the format itself, with its doubled percent signs. Reading the literal gives the format back, and
taking the format apart gives the texts and conversions back that it was put together from.
-/

namespace Emitter.Reading

/-- Reads a literal to its closing quote: the text that it denotes, and what stands behind it. -/
def literalFrom : Mode → List Char → Option (String × String)
  | .closed read, cs => some (String.ofList read, String.ofList cs)
  | _, [] => none
  | mode, c :: cs => (mode.extend c).bind fun next => literalFrom next cs

/-- Reads the literal that a text starts with. -/
def readLiteral (text : String) : Option (String × String) :=
  match text.toList with
  | '"' :: cs => literalFrom (.opened []) cs
  | _ => none

theorem literalFrom_follow {mode next : Mode} {cs : List Char} (h : mode.follow cs = some next)
    (rest : List Char) : literalFrom mode (cs ++ rest) = literalFrom next rest := by
  induction cs generalizing mode with
  | nil =>
      obtain rfl := Option.some.inj h
      rfl
  | cons c cs ih =>
      rw [Mode.follow_cons, Option.bind_eq_some_iff] at h
      obtain ⟨after, hc, hcs⟩ := h
      have hstep : literalFrom mode (c :: (cs ++ rest)) = literalFrom after (cs ++ rest) := by
        cases mode with
        | closed read => simp [Mode.extend] at hc
        | _ => simp only [literalFrom, hc, Option.bind_some]
      exact hstep.trans (ih hcs)

/-- A quoted text is read back as the text, in front of anything. -/
theorem readLiteral_quoted (s rest : String) :
    readLiteral (Text.quoted s ++ rest) = some (s, rest) := by
  have hchars : (Text.quoted s ++ rest).toList =
      '"' :: ((Text.escaped s.toList ++ ['"']) ++ rest.toList) := by
    simp [Text.quoted]
  rw [readLiteral, hchars]
  change literalFrom (.opened []) _ = _
  rw [literalFrom_follow (Mode.follow_opened s.toList [])]
  simp [literalFrom]

end Emitter.Reading

namespace Emitter.CFamily

open Layout Program Reading

variable {cx : Context}

/-! A format is taken apart from the front. What it was put together from goes back in front of it
piece by piece. -/

/-- A format taken apart: its conversions, each with the text in front of it, and the text behind
the last one. -/
structure Segments where
  conversions : List (List Char × Directive)
  ending : List Char
  deriving DecidableEq

namespace Segments

/-- One more character of text in front. -/
def push (c : Char) : Segments → Segments
  | ⟨[], ending⟩ => ⟨[], c :: ending⟩
  | ⟨(text, d) :: rest, ending⟩ => ⟨(c :: text, d) :: rest, ending⟩

/-- More text in front. -/
def behind (text : List Char) (s : Segments) : Segments := text.foldr push s

/-- More conversions with their texts in front. -/
def behindAll (items : List (List Char × Directive)) (s : Segments) : Segments :=
  ⟨items ++ s.conversions, s.ending⟩

theorem behind_nil : behind [] = id := rfl

@[simp] theorem behindAll_nil : behindAll [] = id := rfl

theorem behind_cons (c : Char) (text : List Char) : behind (c :: text) = push c ∘ behind text := rfl

/-- Text in front belongs to the first conversion. -/
theorem behind_conversion (text before : List Char) (d : Directive)
    (rest : List (List Char × Directive)) (ending : List Char) :
    behind text ⟨(before, d) :: rest, ending⟩ = ⟨(text ++ before, d) :: rest, ending⟩ := by
  induction text with
  | nil => rfl
  | cons c text ih => rw [behind_cons, Function.comp_apply, ih]; rfl

/-- Text in front of no conversion belongs to the end. -/
theorem behind_ending (text ending : List Char) :
    behind text ⟨[], ending⟩ = ⟨[], text ++ ending⟩ := by
  induction text with
  | nil => rfl
  | cons c text ih => rw [behind_cons, Function.comp_apply, ih]; rfl

end Segments

/-- Takes a format apart, from between two conversions or from within one. A percent sign right
behind another is a percent sign of the text. -/
def segmentsFrom : Option Opening → List Char → Option Segments
  | none, [] => some ⟨[], []⟩
  | some _, [] => none
  | none, c :: cs =>
    if c = '%' then segmentsFrom (some .start) cs else (segmentsFrom none cs).map (.push c)
  | some o, c :: cs =>
    match o.extend c with
    | some next => segmentsFrom (some next) cs
    | none =>
      if o = .start ∧ c = '%' then (segmentsFrom none cs).map (.push '%')
      else (segmentsFrom none cs).map (.behindAll [([], o.close c)])

/-- The texts and conversions of a format, if every conversion is complete. -/
def segments (format : String) : Option Segments := segmentsFrom none format.toList

/-- A text is read back, its percent signs single. -/
theorem segmentsFrom_formatText (text : String) (rest : List Char) :
    segmentsFrom none ((formatText text).toList ++ rest) =
      (segmentsFrom none rest).map (.behind text.toList) := by
  have hpercent : Opening.start.extend '%' = none := by decide
  have hchars : ∀ cs : List Char,
      segmentsFrom none ((cs.flatMap fun c => if c = '%' then ['%', '%'] else [c]) ++ rest) =
        (segmentsFrom none rest).map (.behind cs) := by
    intro cs
    induction cs with
    | nil => simp [Segments.behind_nil]
    | cons c cs ih =>
        rw [Segments.behind_cons, ← Option.map_map, ← ih]
        by_cases hc : c = '%'
        · simp [hc, segmentsFrom, hpercent]
        · simp [hc, segmentsFrom]
  simpa [formatText] using hchars text.toList

theorem Opening.segmentsFrom_follow {o next : Opening} {cs : List Char}
    (h : o.follow cs = some next) (rest : List Char) :
    segmentsFrom (some o) (cs ++ rest) = segmentsFrom (some next) rest := by
  induction cs generalizing o with
  | nil =>
      obtain rfl := Option.some.inj h
      rfl
  | cons c cs ih =>
      rw [follow, List.foldlM_cons] at h
      obtain ⟨after, hc, hcs⟩ := Option.bind_eq_some_iff.mp h
      simpa [segmentsFrom, hc] using ih hcs

/-- A conversion is read back. -/
theorem Conversion.segmentsFrom_text (c : Conversion) {modifier : List Char} {letter : Char}
    (h : (modifier, letter) ∈ specifiers) (hletters : c.letters.toList = modifier ++ [letter])
    (rest : List Char) :
    segmentsFrom none (c.text.toList ++ rest) =
      (segmentsFrom none rest).map (.behindAll [([], c.directive modifier letter)]) := by
  obtain ⟨cs, o, htext, hpercent, hfollow, hletter, hclose⟩ := c.exists_follow h hletters
  have hsplit : c.text.toList ++ rest = '%' :: (cs ++ letter :: rest) := by simp [htext]
  rw [hsplit, segmentsFrom, if_pos rfl, Opening.segmentsFrom_follow hfollow, segmentsFrom, hletter]
  simp [hpercent, hclose]

namespace Directive

/-- The number in a field, if the field has one. -/
def number? (digits : List Char) : Option ℕ :=
  if digits = [] then none else some (Json.digitsValue 0 digits)

/-- The conversion is the one of the part: with its width, a negative one aligned to the left and
the width zero none at all, with its precision, and with the letters of its hole or of its type. -/
structure Carries (cx : Context) (part : Program.Part) (d : Directive) : Prop where
  width : number? d.width =
    part.hole.width.bind fun n => if n = 0 then none else some n.toInt.natAbs
  left : '-' ∈ d.flags ↔ ∃ n, part.hole.width = some n ∧ n < 0
  flags : ∀ flag ∈ d.flags, flag = '-' ∨ flag = '0' ∧ part.hole.width = some 0
  precision : d.precision.bind number? = part.hole.precision.map UInt32.toNat
  point : d.precision.isSome = part.hole.precision.isSome
  letters : conversionLetters cx .standard part.hole.format part.arg.ty =
    .ok (String.ofList (d.modifier ++ [d.letter]))

@[simp] theorem number?_nil : number? [] = none := rfl

@[simp] theorem number?_toDigits (n : ℕ) : number? (Nat.toDigits 10 n) = some n := by
  rw [number?, if_neg Nat.toDigits_ne_nil, Json.digitsValue_toDigits]

end Directive

/-- What is printed for a hole is read as a conversion that carries the part. -/
theorem carries_directive {part : Part} {c : Conversion} {modifier : List Char} {letter : Char}
    (hc : conversion cx .standard part.hole part.arg.ty = .ok c)
    (hletters : c.letters.toList = modifier ++ [letter]) :
    (c.directive modifier letter).Carries cx part := by
  obtain ⟨letters, hconversion, hc⟩ := Result.bind_eq_ok.mp hc
  obtain rfl := Except.ok.inj hc
  refine ⟨?_, ?_, fun flag hflag => ?_, ?_, ?_, ?_⟩
  · cases hw : part.hole.width with
    | none => simp [Conversion.directive, Conversion.digits]
    | some n => by_cases hn : n = 0 <;> simp [Conversion.directive, Conversion.digits, hn]
  · simp only [Conversion.directive, Conversion.mem_flags]
    exact exists_congr fun n => and_congr_right fun _ => by simp
  · obtain ⟨n, hn, ⟨-, rfl⟩ | ⟨rfl, rfl⟩⟩ := Conversion.mem_flags.mp hflag
    · exact .inl rfl
    · exact .inr ⟨rfl, hn⟩
  · cases part.hole.precision <;> simp [Conversion.directive]
  · simp [Conversion.directive]
  · rw [Conversion.directive_modifier, Conversion.directive_letter, ← hletters,
      String.ofList_toList]
    exact hconversion

/-- The text in front of a conversion and the conversion are the part's. -/
def IsSegment (cx : Context) (part : Part) (item : List Char × Directive) : Prop :=
  item.1 = part.hole.before.toList ∧ item.2.Carries cx part

/-- The characters are read as these conversions with their texts, whatever follows. -/
def Splits (cs : List Char) (items : List (List Char × Directive)) : Prop :=
  ∀ rest, segmentsFrom none (cs ++ rest) = (segmentsFrom none rest).map (.behindAll items)

theorem Splits.append {cs cs' : List Char} {items items' : List (List Char × Directive)}
    (h : Splits cs items) (h' : Splits cs' items') : Splits (cs ++ cs') (items ++ items') := by
  intro rest
  rw [List.append_assoc, h, h', Option.map_map]
  congr 1
  funext s
  simp [Segments.behindAll]

/-- A text with a conversion behind it. -/
theorem splits_conversion (text : String) (c : Conversion) {modifier : List Char} {letter : Char}
    (h : (modifier, letter) ∈ Conversion.specifiers)
    (hletters : c.letters.toList = modifier ++ [letter]) :
    Splits ((formatText text).toList ++ c.text.toList)
      [(text.toList, c.directive modifier letter)] := by
  intro rest
  rw [List.append_assoc, segmentsFrom_formatText, c.segmentsFrom_text h hletters, Option.map_map]
  congr 1
  funext s
  simp [Segments.behindAll, Segments.behind_conversion]

/-- Conversions with their texts, a last text and the end of the line. -/
theorem segments_eq {formats suffix lineEnd : String} {items : List (List Char × Directive)}
    (h : Splits formats.toList items) (hend : lineEnd = "" ∨ lineEnd = "\n") :
    segments (formats ++ formatText suffix ++ lineEnd) =
      some ⟨items, (suffix ++ lineEnd).toList⟩ := by
  have hline : segmentsFrom none lineEnd.toList = some ⟨[], lineEnd.toList⟩ := by
    rcases hend with rfl | rfl <;> rfl
  have hchars : (formats ++ formatText suffix ++ lineEnd).toList =
      formats.toList ++ ((formatText suffix).toList ++ lineEnd.toList) := by simp
  rw [segments, hchars, h, segmentsFrom_formatText, hline]
  simp [Segments.behind_ending, Segments.behindAll]

/-- The conversions of the holes of an interpolated string. -/
theorem exists_splits {parts : List Part} {formats : String}
    (hc : holeFormats cx .standard (cx.holes parts) = .ok formats) :
    ∃ items, Splits formats.toList items ∧ List.Forall₂ (IsSegment cx) parts items := by
  obtain ⟨texts, htexts, hjoin⟩ := Result.bind_eq_ok.mp hc
  obtain rfl := Except.ok.inj hjoin
  rw [Context.holes_eq, List.mapM_map] at htexts
  have hall := Result.forall₂_of_mapM_eq_ok htexts
  clear hc hjoin htexts
  induction hall with
  | nil => exact ⟨[], fun rest => by simp, .nil⟩
  | @cons part text rest others hfirst _ ih =>
      obtain ⟨c, hconversion, htext⟩ := Result.bind_eq_ok.mp hfirst
      obtain rfl := Except.ok.inj htext
      obtain ⟨modifier, letter, hmem, hletters, -⟩ := takes_iff hconversion
      obtain ⟨items, hsplits, hitems⟩ := ih
      refine ⟨(part.hole.before.toList, c.directive modifier letter) :: items, ?_,
        .cons ⟨rfl, carries_directive hconversion hletters⟩ hitems⟩
      simpa [String.join_cons]
        using (splits_conversion part.hole.before c hmem hletters).append hsplits

/-- The text behind the last value that a call prints, the end of the line apart. -/
def printedEnd : List Expr → String
  | [.interpolated _ suffix _] => suffix
  | [.literal (.str text) _] => text
  | _ => ""

/-- The code calls `printf` with a literal that is read as a format. Taken apart, the format has one
conversion for each value, with its part's text in front, and the given text behind the last; and
behind the literal stand the values, each at the place of its conversion. -/
def IsPrintf (cx : Context) (parts : List Part) (ending : String) (code : Code) : Prop :=
  ∃ literal format items values,
    code.text = "printf(" ++ literal ∧
      readLiteral literal =
        some (format, String.join (values.map fun value => ", " ++ Code.text value) ++ ")") ∧
      segments format = some ⟨items, ending.toList⟩ ∧
      List.Forall₂ (IsSegment cx) parts items ∧
      List.Forall₂ (fun part value => IsArgument cx part.arg value) parts values

theorem text_commaSeparated (first : Code) (rest : List Code) :
    (Code.commaSeparated (first :: rest)).text =
      first.text ++ String.join (rest.map fun code => ", " ++ Code.text code) := by
  induction rest generalizing first with
  | nil => simp [Code.commaSeparated]
  | cons second rest ih =>
      have hcons : Code.commaSeparated (first :: second :: rest) =
          first ++ (Code.comma ++ Code.commaSeparated (second :: rest)) := rfl
      rw [hcons, Code.text_append, Code.text_append, ih]
      simp [String.join_cons, Code.comma, Code.text, Lexeme.text, String.append_assoc]

theorem isPrintf_of_printfCall {parts : List Part} {format ending : String}
    {items : List (List Char × Directive)} {code : Code}
    (hc : printfCall .standard format ((parts.map Part.arg).map cx.operand) = .ok code)
    (hformat : segments format = some ⟨items, ending.toList⟩)
    (hitems : List.Forall₂ (IsSegment cx) parts items) : IsPrintf cx parts ending code := by
  obtain ⟨values, hvalues, rfl⟩ := isPrinted_printf hc
  refine ⟨_, format, items, values, ?_, readLiteral_quoted format _, hformat, hitems,
    List.forall₂_map_left_iff.mp hvalues⟩
  have htext : Code.text (.supplied "printf" (.header .stdio) ::
      Code.parenthesized (Code.commaSeparated ([.quoted format] :: values))) =
        "printf(" ++ ((Code.commaSeparated ([.quoted format] :: values)).text ++ ")") := by
    simp [Code.parenthesized, Code.text, Lexeme.text, String.join_cons, ← String.append_assoc]
  rw [htext, text_commaSeparated]
  simp [Code.text, Lexeme.text, String.join_cons, String.append_assoc]

/-- What is printed, by its parts and its end. -/
theorem exists_printfCall {args : List Expr} {lineEnd : String} {code : Code}
    (hc : print cx .standard lineEnd (cx.shown args) = .ok code) : ∃ formats,
      holeFormats cx .standard (cx.holes (printedParts args)) = .ok formats ∧
      printfCall .standard (formats ++ formatText (printedEnd args) ++ lineEnd)
        (((printedParts args).map Part.arg).map cx.operand) = .ok code := by
  have hempty : formatText "" = "" := rfl
  rcases args with _ | ⟨e, _ | ⟨second, rest⟩⟩
  · exact ⟨"", rfl, hc⟩
  · rcases shown_singleton cx e with ⟨parts, suffix, ty, rfl⟩ | ⟨hshown, -⟩
    · obtain ⟨formats, hformats, hc⟩ := Result.bind_eq_ok.mp hc
      refine ⟨formats, hformats, ?_⟩
      have hvalues : (cx.holes parts).map Prod.snd = (parts.map Part.arg).map cx.operand := by
        simp [Context.holes_eq, Function.comp_def]
      exact hvalues ▸ hc
    · rw [hshown] at hc
      simp only [print] at hc
      split at hc
      case h_1 text ty hliteral =>
        obtain rfl : e = .literal (.str text) ty := hliteral
        exact ⟨"", rfl, by simpa [printedParts, printedEnd] using hc⟩
      case h_2 hvalue =>
        obtain ⟨c, hconversion, hc⟩ := Result.bind_eq_ok.mp hc
        have hparts : printedParts [e] = [.mk plainHole e] ∧ printedEnd [e] = "" := by
          cases e with
          | interpolated => simp [Context.shown] at hshown
          | literal value ty =>
              cases value with
              | str text => exact absurd rfl (hvalue text ty)
              | _ => exact ⟨rfl, rfl⟩
          | _ => exact ⟨rfl, rfl⟩
        refine ⟨c.text, ?_, ?_⟩
        · have hsingle : holeFormats cx .standard (cx.holes [.mk plainHole e]) = (do
              let c ← conversion cx .standard plainHole e.ty
              return String.join [formatText "" ++ c.text]) := by
            simp [holeFormats, Context.holes_eq, Part.hole, Part.arg, Context.operand, plainHole]
          have hc : conversion cx .standard plainHole e.ty = .ok c := hconversion
          rw [hparts.1, hsingle, hc]
          simp [bind, Except.bind, pure, Except.pure, hempty, String.join_cons]
        · rw [hparts.1, hparts.2, hempty, String.append_empty]
          exact hc
  · simp [print_many, Context.unsupported] at hc

theorem isPrintf_print {args : List Expr} {lineEnd : String} {code : Code}
    (hend : lineEnd = "" ∨ lineEnd = "\n")
    (hc : print cx .standard lineEnd (cx.shown args) = .ok code) :
    IsPrintf cx (printedParts args) (printedEnd args ++ lineEnd) code := by
  obtain ⟨formats, hformats, hc⟩ := exists_printfCall hc
  obtain ⟨items, hsplits, hitems⟩ := exists_splits hformats
  exact isPrintf_of_printfCall hc (segments_eq hsplits hend) hitems

/-- **Decoding.** A quoted text is read back in front of anything. A printed call that writes to the
console is a `printf` whose literal, read and taken apart, gives the parts of what is written: each
text, behind it a conversion with the part's width, precision and letters, and the last text with
the end of the line. The values stand behind the literal in the same order, one for each
conversion. -/
theorem decodes : (∀ s rest, readLiteral (Text.quoted s ++ rest) = some (s, rest)) ∧
    ∀ (cx : Context) (receiver : Option Expr) (m : BuiltinMethod) (args : List Expr) (ty : Ty)
      (code : Code), cx.target = .cFamily .standard → m = .consoleWrite ∨ m = .consoleWriteLine →
        cx.code (.call receiver (.builtin m) args ty) = .ok code →
          IsPrintf cx (printedParts args)
            (printedEnd args ++ if m = .consoleWriteLine then "\n" else "") code := by
  refine ⟨readLiteral_quoted, fun cx receiver m args ty code ht hm hc => ?_⟩
  have hprint : ∀ {m' : BuiltinMethod} {lineEnd : String}, lineEnd = "" ∨ lineEnd = "\n" →
      printCall cx .standard (receiver.map cx.operand) m' lineEnd (cx.shown args) = .ok code →
        IsPrintf cx (printedParts args) (printedEnd args ++ lineEnd) code := by
    intro m' lineEnd hend hc
    cases receiver with
    | none => exact isPrintf_print hend hc
    | some obj => simp [printCall, Context.unsupported] at hc
  rw [code_builtinCall, ht] at hc
  rcases hm with rfl | rfl
  · exact hprint (.inl rfl) hc
  · exact hprint (.inr rfl) hc

/-- A percent sign and a digit in front of a conversion that is aligned to the left, a backslash and
a quote in the texts, and a width of zero. -/
theorem decodes_aligned :
    let cx : Context := ⟨.empty, .cFamily .standard, none⟩
    let count : Part := .mk ⟨"100%5 \"\\", some (-8), none, none⟩ (.var "n" (.int .int))
    let share : Part := .mk ⟨"", some 0, some 'f', some 2⟩ (.var "x" (.float .double))
    let args : List Expr := [.interpolated [count, share] "%d" .string]
    ∃ code, cx.target = .cFamily .standard ∧
      cx.code (.call none (.builtin .consoleWriteLine) args .void) = .ok code ∧
      code.text = "printf(\"100%%5 \\\"\\\\%-8d%0.2f%%d\\n\", n, x)" ∧
      IsPrintf cx [count, share] "%d\n" code := by
  intro cx count share args
  have hcode : cx.code (.call none (.builtin .consoleWriteLine) args .void) = .ok _ := rfl
  exact ⟨_, rfl, hcode, by decide,
    decodes.2 cx none .consoleWriteLine args .void _ rfl (.inr rfl) hcode⟩

end Emitter.CFamily
