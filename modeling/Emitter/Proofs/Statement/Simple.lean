import Emitter.Proofs.Expression.Faithful
import Emitter.Proofs.Reading.Numerals
import Emitter.Proofs.Statement.Margins

/-!
# Simple statements are tidy

An expression, a local or an assignment is printed as code that begins and ends as an expression
does, and closes its brackets.
-/

namespace Emitter

open Layout Program Reading

namespace Layout.Code

variable {strict : Bool} {code : Code}

theorem Stretch.names {w : String} {l : Lexeme} (hl : l.Names w) (h : isWord w = true)
    (hword : w ∉ statementWords) : Stretch strict [l] where
  toTidy := .name hl h
  begins := by rcases hl with rfl | ⟨supplier, rfl⟩ <;> exact ⟨_, rfl, hword⟩
  ends := by rcases hl with rfl | ⟨supplier, rfl⟩ <;> exact ⟨_, rfl, trivial⟩

theorem Stretch.word {w : String} (h : isWord w = true) (hword : w ∉ statementWords) :
    Stretch strict [.word w] := .names (.inl rfl) h hword

theorem Stretch.numeral (n : Nat) : Stretch strict [.number (toString n)] :=
  (@Piece.number .actionScript strict _ (isNumeral_toString n).number
    (isNumeral_toString n).last).toStretch

/-- A word and a space in front of a stretch. -/
theorem Stretch.behind_word {w : String} (hcode : Stretch strict code) (h : isWord w = true)
    (hword : w ∉ statementWords) : Stretch strict (.word w :: .gap :: code) where
  toTidy := by
    have hgap : Tidy strict [.word w, .gap] :=
      (Tidy.word h).append .gap fun x hx y hy => by
        obtain rfl : x = .word w := by simpa using hx.symm
        obtain rfl : y = .gap := by simpa using hy.symm
        exact .of_separate_right h rfl (by simp)
    exact hgap.append hcode.toTidy fun x hx y _ => by
      obtain rfl : x = .gap := by simpa using hx.symm
      exact .of_separate_left rfl y
  begins := ⟨_, rfl, hword⟩
  ends := by
    obtain ⟨l, hl, hends⟩ := hcode.ends
    exact ⟨l, by simp_all [List.getLast?_cons], hends⟩

/-- Brackets behind a stretch. -/
theorem Stretch.brackets {inner : Code} {opener closer : String} (h : Stretch strict code)
    (hinner : Tidy strict inner) (hlast : ∀ x ∈ inner.getLast?, x.Ends)
    (hbrackets : (opener, closer) ∈ [("(", ")"), ("[", "]")]) :
    Stretch strict (code ++ Lexeme.symbol opener :: (inner ++ ([.symbol closer] : Code))) := by
  have hmem : ∀ p ∈ [("(", ")"), ("[", "]")], p.1 ∈ ["(", "[", "\x7b"] ∧
      p.2 ∈ [")", "]", "\x7d"] ∧ (Lexeme.symbol p.1).isSeparate = true ∧
        p.2 ∈ [")", "]", "++", "--"] := by decide
  obtain ⟨hopen, hclose, hseparate, hends⟩ := hmem _ hbrackets
  refine h.append (hinner.bracketed hopen hclose fun x hx => (hlast x hx).ne_slash) ?_
    ⟨.symbol closer, getLast?_bracketed .., hends⟩
  intro x hx y hy
  obtain rfl : y = .symbol opener := by simpa using hy.symm
  exact h.joint_separate hseparate x hx

end Layout.Code

/-- The steps print tidy code that begins as an expression does, all in one line. -/
structure Step.PrintCode (steps : List Step) (code : Code) : Prop where
  tidy : Code.Tidy false code
  begins : ∃ l ∈ code.head?, l.Begins
  texts : Step.texts steps = code.text.toList
  inline : ∀ step ∈ steps, step.isInline = true

theorem Step.PrintCode.of_stretch {steps : List Step} {code : Code} (h : Code.Stretch false code)
    (hsteps : Step.texts steps = code.text.toList ∧ ∀ step ∈ steps, step.isInline = true) :
    Step.PrintCode steps code := ⟨h.toTidy, h.begins, hsteps.1, hsteps.2⟩

variable {cx : Context}

theorem Context.stretch_code {strict : Bool} (hnamed : cx.program.Named cx.target) {e : Expr}
    {code : Code} (hname : e.everywhere Expr.isNamed = true)
    (hlegible : strict = true → e.everywhere cx.isLegible = true) (hc : cx.code e = .ok code) :
    Code.Stretch strict code :=
  ((@sound cx strict hnamed e hname hlegible).printed code hc).piece.toStretch

theorem Context.stretch_localWord (cx : Context) {name : String} (h : isWord name = true) :
    Code.Stretch false [cx.localWord name] :=
  .word (isWord_localWord cx h).1 (not_mem_statementWords (isWord_localWord cx h).2)

theorem Program.Named.className (hnamed : cx.program.Named cx.target) {id : ClassId}
    {c : ClassDef} (hc : cx.classOf id = .ok c) :
    isWord c.name = true ∧ c.name ∉ statementWords := by
  obtain ⟨hword, hkeyword, -⟩ := hnamed.classes c (List.mem_of_getElem? (Context.classOf_eq_ok hc))
  exact ⟨hword, not_mem_statementWords (not_mem_controlWords hkeyword)⟩

theorem plain_assignOp (op : AssignOp) : op.text.toList ∈ operators ∧
    op.text ∉ ["(", "[", "\x7b", ")", "]", "\x7d", ";", "//", "/*"] := by
  cases op <;> decide

namespace ActionScript

theorem stretch_typeCode (hnamed : cx.program.Named cx.target) {ty : Ty} {code : Code}
    (hc : typeCode cx ty = .ok code) : Code.Stretch false code := by
  induction ty generalizing code with
  | int kind =>
      cases kind <;> simp only [typeCode, Context.unmappedType, reduceCtorEq] at hc <;>
        obtain rfl := Except.ok.inj hc <;> exact .word (by decide) (by decide)
  | null => simp [typeCode, Context.unmappedType] at hc
  | classStorage id | classRef id =>
      obtain ⟨c, hclass, hc⟩ := Result.bind_eq_ok.mp hc
      obtain rfl := Except.ok.inj hc
      exact .word (hnamed.className hclass).1 (hnamed.className hclass).2
  | array element storage length ih =>
      obtain ⟨inner, -, hc⟩ := Result.bind_eq_ok.mp hc
      obtain rfl := Except.ok.inj hc
      split_ifs <;> exact .word (by decide) (by decide)
  | _ =>
      obtain rfl := Except.ok.inj hc
      exact .word (by decide) (by decide)

theorem stretch_typed (hnamed : cx.program.Named cx.target) {name : String} {ty : Ty} {code : Code}
    (hname : isWord name = true) (hc : typed cx name ty = .ok code) : Code.Stretch false code := by
  obtain ⟨type, htype, hc⟩ := Result.bind_eq_ok.mp hc
  obtain rfl := Except.ok.inj hc
  exact (cx.stretch_localWord hname).infixed (stretch_typeCode hnamed htype) (by decide) (by decide)

theorem stretch_impliedInitializer (hnamed : cx.program.Named cx.target) {ty : Ty} {code : Code}
    (hc : impliedInitializer cx ty = .ok (some code)) : Code.Stretch false code := by
  unfold impliedInitializer at hc
  split at hc
  case h_1 id =>
    obtain ⟨c, hclass, hc⟩ := Result.bind_eq_ok.mp hc
    obtain rfl := Option.some.inj (Except.ok.inj hc)
    have hname := hnamed.className hclass
    exact ((Code.Stretch.word hname.1 hname.2).brackets .nil (by simp)
      (List.mem_cons_self ..)).behind_word (by decide) (by decide)
  case h_2 element length =>
    obtain rfl := Option.some.inj (Except.ok.inj hc)
    have hcall : ∀ {w : String} {inner : Code}, isWord w = true ∧ w ∉ statementWords →
        Code.Tidy false inner → (∀ x ∈ inner.getLast?, x.Ends) →
          Code.Stretch false (.word "new" :: .gap :: ([Lexeme.word w] ++ inner.parenthesized)) :=
      fun hw hinner hends => ((Code.Stretch.word hw.1 hw.2).brackets hinner hends
        (List.mem_cons_self ..)).behind_word (by decide) (by decide)
    split_ifs
    · exact hcall (by decide) .nil (by simp)
    · cases length with
      | none => exact hcall (by decide) .nil (by simp)
      | some n =>
          have hsize : Code.Stretch false _ := .numeral n.toNat
          exact hcall (by decide) hsize.toTidy fun x hx => hsize.ends_of_mem hx
  case h_3 => simp [pure, Except.pure] at hc

/-- The initializer goes on behind the declaration. -/
theorem exists_printCode_initializer (hnamed : cx.program.Named cx.target) {name : String} {ty : Ty}
    {value : Option Expr} {code : Code} {steps : List Step} (hcode : Code.Stretch false code)
    (hvalue : ∀ e ∈ value, e.everywhere Expr.isNamed = true)
    (h : initializer cx name ty value = ⟨steps, .ok ()⟩) :
    ∃ code', Step.PrintCode (.put code :: steps) code' := by
  have hinit : ∀ init, Code.Stretch false init →
      Code.Stretch false (code ++ Code.operator "=" ++ init) := fun init hinit =>
    hcode.infixed hinit (by decide) (by decide)
  obtain ⟨implied, himplied, hrest⟩ := Emit.liftM_bind_eq_ok.mp h
  cases implied with
  | some init =>
      have hstretch := hinit init (stretch_impliedInitializer hnamed himplied)
      obtain ⟨notes, hnote, rfl⟩ := Emit.ofSteps_bind_eq_ok.mp hrest
      refine ⟨_, .of_stretch hstretch ?_⟩
      split at hnote
      · obtain rfl := Emit.ofSteps_eq_ok.mp hnote
        simp [Step.texts, Step.text, Step.isInline]
      · obtain ⟨-, rfl⟩ := Emit.pure_eq_ok.mp hnote
        simp [Step.texts, Step.text, Step.isInline]
  | none =>
      cases value with
      | none =>
          obtain ⟨-, rfl⟩ := Emit.pure_eq_ok.mp hrest
          exact ⟨_, .of_stretch hcode (by simp [Step.texts, Step.text, Step.isInline])⟩
      | some e =>
          obtain ⟨init, he, hput⟩ := Emit.liftM_bind_eq_ok.mp hrest
          obtain rfl := Emit.ofSteps_eq_ok.mp hput
          have hstretch := hinit init (Context.stretch_code hnamed (hvalue e rfl) (by simp) he)
          exact ⟨_, .of_stretch hstretch (by simp [Step.texts, Step.text, Step.isInline])⟩

theorem exists_printCode_declareLocal (hnamed : cx.program.Named cx.target) {decl : VarDecl}
    {steps : List Step} (hname : isWord decl.name = true)
    (hvalue : ∀ e ∈ decl.value, e.everywhere Expr.isNamed = true)
    (h : declareLocal cx decl = ⟨steps, .ok ()⟩) : ∃ code, Step.PrintCode steps code := by
  obtain ⟨type, htype, hrest⟩ := Emit.liftM_bind_eq_ok.mp h
  obtain ⟨rest, hinit, rfl⟩ := Emit.ofSteps_bind_eq_ok.mp hrest
  exact exists_printCode_initializer hnamed
    ((stretch_typed hnamed hname htype).behind_word (by decide) (by decide)) hvalue hinit

theorem stretch_assign {strict : Bool} (hnamed : cx.program.Named cx.target)
    (ht : cx.target = .actionScript) {target value : Expr} {op : AssignOp} {code : Code}
    (htarget : target.everywhere Expr.isNamed = true)
    (hvalue : value.everywhere Expr.isNamed = true)
    (hlegible : strict = true →
      target.everywhere cx.isLegible = true ∧ value.everywhere cx.isLegible = true)
    (hc : assign cx target op value = .ok code) : Code.Stretch strict code := by
  have hplace : ∀ {place : Code}, cx.code target = .ok place → Code.Stretch strict place :=
    Context.stretch_code hnamed htarget fun hs => (hlegible hs).1
  unfold assign at hc
  split_ifs at hc with hdiv hpure
  · obtain ⟨place, hcode, hc⟩ := Result.bind_eq_ok.mp hc
    obtain ⟨quotient, hquotient, hc⟩ := Result.bind_eq_ok.mp hc
    obtain rfl := Except.ok.inj hc
    have hstretch : Code.Stretch strict quotient := by
      refine Context.stretch_code (e := .binary target .div value (.int .int)) hnamed ?_ ?_ ?_
      · exact Expr.everywhere_iff.mpr ⟨rfl, by simp [Expr.children, htarget, hvalue]⟩
      · exact fun hs => Expr.everywhere_iff.mpr ⟨rfl, by simp [Expr.children, hlegible hs]⟩
      · rw [Context.code]
        change cx.binary .div (.int .int) (cx.operand target) (cx.operand value) = _
        simpa [Context.binary, ht, binary, Ty.isInteger] using hquotient
    exact (hplace hcode).infixed hstretch (by decide) (by decide)
  · cases target with
    | index array position ty =>
        have hall : ∀ p : Expr → Bool, (Expr.index array position ty).everywhere p = true →
            value.everywhere p = true → ∀ e ∈ [array, position, value], e.everywhere p = true := by
          intro p hindex hvalue
          obtain ⟨-, hoperands⟩ := Expr.everywhere_iff.mp hindex
          simpa [Expr.children, hvalue] using hoperands
        have hes : ∀ e ∈ [array, position, value], Printed cx strict e := fun e he =>
          (@sound cx strict hnamed e (hall _ htarget hvalue e he) fun hs =>
            hall _ (hlegible hs).1 (hlegible hs).2 e he).printed
        exact (solid_helperCall [array, position, value] (by decide) hes hc).piece.toStretch
    | _ => simp [Context.unsupported] at hc
  · obtain ⟨place, hcode, hc⟩ := Result.bind_eq_ok.mp hc
    obtain ⟨given, hgiven, hc⟩ := Result.bind_eq_ok.mp hc
    obtain rfl := Except.ok.inj hc
    exact (hplace hcode).infixed
      (Context.stretch_code hnamed hvalue (fun hs => (hlegible hs).2) hgiven)
      (plain_assignOp op).1 (plain_assignOp op).2

end ActionScript

namespace CFamily

/-- The spelling of a type, which ends in a word or in a star. -/
structure Spelling (type : Code) : Prop where
  tidy : Code.Tidy false type
  begins : ∃ l ∈ type.head?, l.Begins
  last : ∃ l ∈ type.getLast?, l = .symbol "*" ∨ ∃ w, isWord w = true ∧ l.Names w

theorem Spelling.of_stretch {b : Code} {w : String} {l : Lexeme} (hl : l.Names w)
    (hw : isWord w = true) (h : Code.Stretch false (b ++ [l])) : Spelling (b ++ [l]) :=
  ⟨h.toTidy, h.begins, l, by simp, .inr ⟨w, hw, hl⟩⟩

theorem Spelling.names {w : String} {l : Lexeme} (hl : l.Names w) (h : isWord w = true)
    (hword : w ∉ statementWords) : Spelling [l] := .of_stretch (b := []) hl h (.names hl h hword)

/-- What is not a word may stand behind a type. -/
theorem Spelling.joint {type : Code} (h : Spelling type) {b : Lexeme}
    (hb : b.isWordlike = false) : ∀ x ∈ type.getLast?, Lexeme.Joint false x b := by
  intro x hx
  obtain ⟨l, hl, hlast⟩ := h.last
  obtain rfl := Option.mem_unique hx hl
  refine ⟨nofun, fun _ => hb, fun hslash => ?_⟩
  rcases hlast with rfl | ⟨w, -, rfl | ⟨supplier, rfl⟩⟩ <;> simp at hslash

theorem Spelling.append_star {type g : Code} (h : Spelling type) (hgap : g = [] ∨ g = [.gap]) :
    Spelling (type ++ (g ++ [Lexeme.symbol "*"])) where
  tidy := by
    have hstar : Code.Tidy false [.symbol "*"] := .symbol (by decide) (by decide)
    rcases hgap with rfl | rfl
    · exact h.tidy.append hstar fun x hx y hy => by
        obtain rfl : y = .symbol "*" := by simpa using hy.symm
        exact h.joint rfl x hx
    · refine h.tidy.append (Code.Tidy.gap.append hstar fun x hx y _ => ?_) fun x hx y hy => ?_
      · obtain rfl : x = .gap := by simpa using hx.symm
        exact .of_separate_left rfl y
      · obtain rfl : y = .gap := by simpa using hy.symm
        exact h.joint rfl x hx
  begins := by
    obtain ⟨l, hl, hbegins⟩ := h.begins
    exact ⟨l, by simp_all [List.head?_append], hbegins⟩
  last := ⟨.symbol "*", by simp [List.getLast?_append], .inl rfl⟩

theorem Spelling.pointerTo {type : Code} (h : Spelling type) : Spelling (pointerTo type) := by
  unfold CFamily.pointerTo
  split
  · exact h.append_star (g := []) (.inl rfl)
  · exact h.append_star (g := [.gap]) (.inr rfl)

theorem Spelling.getLast?_of_endsInStar {type : Code} (h : Spelling type)
    (hstar : type.endsInStar = true) : type.getLast? = some (.symbol "*") := by
  obtain ⟨x, hl, rfl | ⟨w, hw, hname⟩⟩ := h.last
  · exact hl
  · obtain ⟨before, rfl⟩ := List.getLast?_eq_some_iff.mp hl
    have htext : x.text = w := by rcases hname with rfl | ⟨supplier, rfl⟩ <;> rfl
    have hlast : '*' ∈ w.toList := by
      obtain ⟨c, cs, hc, -⟩ := Text.exists_cons_of_isWord hw
      have hne : x.text.toList ≠ [] := by simp [htext, hc]
      have hend : (Code.text (before ++ [x])).toList.getLast? = some '*' := by
        simpa [Code.endsInStar] using hstar
      rw [Code.toList_text, List.flatMap_append, List.flatMap_singleton,
        List.getLast?_append_of_ne_nil _ hne, htext] at hend
      exact List.mem_of_getLast? hend
    exact absurd (Text.isWordChar_of_isWord hw '*' hlast) (by decide)

/-- A name may stand directly behind a type that ends in a star. -/
theorem Spelling.joint_of_endsInStar {type : Code} (h : Spelling type)
    (hstar : type.endsInStar = true) (b : Lexeme) :
    ∀ x ∈ type.getLast?, Lexeme.Joint false x b := by
  intro x hx
  rw [h.getLast?_of_endsInStar hstar] at hx
  obtain rfl := Option.some.inj hx
  exact ⟨nofun, by simp [Lexeme.isWordlike], by simp⟩

theorem stretch_beforeName {type : Code} (h : Spelling type) {name : Lexeme}
    (hname : Code.Stretch false [name]) : Code.Stretch false (beforeName type ++ [name]) where
  toTidy := by
    unfold beforeName
    split
    case isTrue hstar =>
      exact h.tidy.append hname.toTidy fun x hx y _ => h.joint_of_endsInStar hstar y x hx
    case isFalse =>
      refine (h.tidy.append .gap fun x hx y hy => ?_).append hname.toTidy fun x hx y _ => ?_
      · obtain rfl : y = .gap := by simpa using hy.symm
        exact h.joint rfl x hx
      · obtain rfl : x = .gap := by simpa using hx.symm
        exact .of_separate_left rfl y
  begins := by
    obtain ⟨l, hl, hbegins⟩ := h.begins
    unfold beforeName
    split <;> exact ⟨l, by simp_all [List.head?_append], hbegins⟩
  ends := by
    obtain ⟨l, hl, hends⟩ := hname.ends
    exact ⟨l, by simp_all [List.getLast?_append], hends⟩

theorem spelling_typeCode (hnamed : cx.program.Named cx.target) {d : Dialect} {ty : Ty}
    {code : Code} (hc : typeCode cx d ty = .ok code) : Spelling code := by
  have hword : ∀ {w : String}, isWord w = true ∧ w ∉ statementWords → Spelling [.word w] :=
    fun hw => .names (.inl rfl) hw.1 hw.2
  induction ty generalizing code with
  | null => simp [typeCode, Context.unmappedType] at hc
  | bool =>
      obtain rfl := Except.ok.inj hc
      exact .names (.inr ⟨_, rfl⟩) (w := "bool") (by decide) (by decide)
  | int kind =>
      obtain rfl := Except.ok.inj hc
      cases d <;> cases kind <;>
        first | exact hword (by decide) | exact .names (.inr ⟨_, rfl⟩) (by decide) (by decide)
  | float kind =>
      cases kind <;> obtain rfl := Except.ok.inj hc <;> exact hword (by decide)
  | string =>
      obtain rfl := Except.ok.inj hc
      have hchar : Code.Stretch false [.word "char"] := .word (by decide) (by decide)
      have htype : ∀ {w : String}, isWord w = true ∧ w ∉ statementWords →
          Spelling [.word w, .gap, .word "char"] := fun hw =>
        .of_stretch (b := [.word _, .gap]) (.inl rfl) (by decide) (hchar.behind_word hw.1 hw.2)
      cases d with
      | standard => exact (htype (by decide)).append_star (g := [.gap]) (.inr rfl)
      | openCL => exact (htype (by decide)).append_star (g := [.gap]) (.inr rfl)
  | classStorage id =>
      obtain ⟨c, hclass, hc⟩ := Result.bind_eq_ok.mp hc
      obtain rfl := Except.ok.inj hc
      exact hword (hnamed.className hclass)
  | classRef id =>
      obtain ⟨c, hclass, hc⟩ := Result.bind_eq_ok.mp hc
      obtain rfl := Except.ok.inj hc
      exact (hword (hnamed.className hclass)).append_star (g := [.gap]) (.inr rfl)
  | array element storage length ih =>
      obtain ⟨inner, hinner, hc⟩ := Result.bind_eq_ok.mp hc
      obtain rfl := Except.ok.inj hc
      exact (ih hinner).pointerTo
  | void | enumeration =>
      obtain rfl := Except.ok.inj hc
      exact hword (by decide)

/-- The lengths of the arrays around a name, in brackets behind it. -/
theorem stretch_dimensions {code : Code} (h : Code.Stretch false code) (lengths : List UInt32) :
    Code.Stretch false (code ++ lengths.flatMap fun n =>
      [Lexeme.symbol "[", Lexeme.number (toString n.toNat), Lexeme.symbol "]"]) := by
  induction lengths generalizing code with
  | nil => simpa using h
  | cons n lengths ih =>
      have hsize : Code.Stretch false _ := .numeral n.toNat
      have hfirst := h.brackets hsize.toTidy (fun x hx => hsize.ends_of_mem hx)
        (List.mem_cons_of_mem _ (List.mem_singleton_self _))
      simpa using ih hfirst

theorem stretch_declaration (hnamed : cx.program.Named cx.target) {d : Dialect} {ty : Ty}
    {name : Lexeme} {code : Code} (hname : Code.Stretch false [name])
    (hc : declaration cx d ty name = .ok code) : Code.Stretch false code := by
  obtain ⟨⟨lengths, base⟩, -, hc⟩ := Result.bind_eq_ok.mp hc
  obtain ⟨type, htype, hc⟩ := Result.bind_eq_ok.mp hc
  obtain rfl := Except.ok.inj hc
  have hfirst := stretch_beforeName (spelling_typeCode hnamed htype) hname
  simpa using stretch_dimensions hfirst lengths

/-- The initializer of what starts out filled with zeros. -/
def zeros : Code :=
  Code.operator "=" ++ [.symbol "\x7b", .gap, .number "0", .gap, .symbol "\x7d"]

theorem tidy_zeros : Code.Tidy false zeros := by
  have hzero : Code.Stretch false [.number "0"] := .numeral 0
  have hspaced : Code.Tidy false [.gap, .number "0", .gap] :=
    Code.Tidy.gap.append (hzero.toTidy.append .gap fun x hx y hy => by
      obtain rfl : y = .gap := by simpa using hy.symm
      exact hzero.joint_separate rfl x hx) fun x hx y _ => by
        obtain rfl : x = .gap := by simpa using hx.symm
        exact .of_separate_left rfl y
  have hbraces : Code.Tidy false
      (.symbol "\x7b" :: ([Lexeme.gap, Lexeme.number "0", Lexeme.gap] ++ [Lexeme.symbol "\x7d"])) :=
    hspaced.bracketed (by decide) (by decide) (by simp)
  have hoperator : Code.Tidy false (Code.operator "=") :=
    Code.Stretch.tidy_operator (by decide) (by decide)
  exact hoperator.append hbraces fun x hx y _ => by
    obtain rfl : x = .gap := by simpa [Code.operator] using hx.symm
    exact .of_separate_left rfl y

theorem exists_printCode_declareLocal (hnamed : cx.program.Named cx.target) {d : Dialect}
    {decl : VarDecl} {steps : List Step} (hname : isWord decl.name = true)
    (hvalue : ∀ e ∈ decl.value, e.everywhere Expr.isNamed = true)
    (h : declareLocal cx d decl = ⟨steps, .ok ()⟩) : ∃ code, Step.PrintCode steps code := by
  obtain ⟨type, htype, hrest⟩ := Emit.liftM_bind_eq_ok.mp h
  obtain ⟨rest, hinit, rfl⟩ := Emit.ofSteps_bind_eq_ok.mp hrest
  have hcode := stretch_declaration hnamed (cx.stretch_localWord hname) htype
  split at hinit
  · have hsteps : Step.texts rest = zeros.text.toList ∧
        ∀ step ∈ rest, step.isInline = true := by
      dsimp only at hinit
      split at hinit
      · obtain ⟨zeros, hput, rfl⟩ := Emit.ofSteps_bind_eq_ok.mp hinit
        obtain rfl := Emit.ofSteps_eq_ok.mp hput
        simp [Step.texts, Step.text, Step.isInline, zeros]
      · obtain rfl := Emit.ofSteps_eq_ok.mp hinit
        simp [Step.texts, Step.text, Step.isInline, zeros]
    refine ⟨type ++ zeros, hcode.toTidy.append tidy_zeros fun x hx y hy => ?_, ?_, ?_, ?_⟩
    · obtain rfl : y = .gap := by simpa [zeros, Code.operator] using hy.symm
      exact hcode.joint_separate rfl x hx
    · obtain ⟨l, hl, hbegins⟩ := hcode.begins
      exact ⟨l, by simp_all [List.head?_append], hbegins⟩
    · rw [Code.text_append, String.toList_append, ← hsteps.1]
      simp [Step.texts, Step.text]
    · simpa [Step.isInline] using hsteps.2
  · split at hinit
    case h_1 e hsome =>
      obtain ⟨init, he, hput⟩ := Emit.liftM_bind_eq_ok.mp hinit
      obtain rfl := Emit.ofSteps_eq_ok.mp hput
      have hstretch := hcode.infixed (Context.stretch_code hnamed (hvalue e hsome) (by simp) he)
        (s := "=") (by decide) (by decide)
      exact ⟨_, .of_stretch hstretch (by simp [Step.texts, Step.text, Step.isInline])⟩
    case h_2 =>
      obtain ⟨-, rfl⟩ := Emit.pure_eq_ok.mp hinit
      exact ⟨_, .of_stretch hcode (by simp [Step.texts, Step.text, Step.isInline])⟩

end CFamily

end Emitter
