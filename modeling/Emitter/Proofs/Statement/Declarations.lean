import Emitter.Proofs.Expression.Evaluated
import Emitter.Proofs.Storage.Locals

/-!
# The text of a declaration in C

A declaration in C is read as the lexemes it is made of, whatever its type, and by itself it has no
effect.
-/

namespace Emitter

open Layout Program Reading

namespace CFamily

variable {cx : Context} {d : Dialect} {code : Code} {ty : Ty}

/-- The text is read as the tokens of the code in front of anything separate. -/
theorem IsCut.scans (h : IsCut code) : Scans code.text.toList code.tokens := fun _ hrest =>
  Code.scanFrom_text h.spelled h.apart fun l hl c hc =>
    Lexeme.extend_separateChar (h.spelled l (List.mem_of_getLast? hl)) (hrest c hc)

theorem IsCut.settles (h : IsCut code) (hlast : ∀ l ∈ code.getLast?, l.isSeparate = true) :
    Settles code.text.toList code.tokens := fun _ =>
  Code.scanFrom_text h.spelled h.apart fun l hl c _ =>
    Lexeme.extend_pending_of_isSeparate (hlast l hl) c

theorem IsCut.left {rest : Code} (h : IsCut (code ++ rest)) : IsCut code :=
  ⟨fun l hl => h.spelled l (List.mem_append_left _ hl), (List.isChain_append.mp h.apart).1⟩

/-- What starts with something separate may stand behind any code. -/
theorem IsCut.append_separate {next : Code} (h : IsCut code) (hnext : IsCut next)
    (hseparate : ∀ l ∈ next.head?, l.isSeparate = true) : IsCut (code ++ next) :=
  h.append hnext fun x hx y hy _ hc =>
    Lexeme.extend_separateChar (h.spelled x (List.mem_of_getLast? hx))
      (Lexeme.mem_separateChars_of_isSeparate (hseparate y hy) hc)

/-- Any code may stand behind what ends with something separate. -/
theorem IsCut.separate_append {next : Code} (h : IsCut code) (hnext : IsCut next)
    (hseparate : ∀ l ∈ code.getLast?, l.isSeparate = true) : IsCut (code ++ next) :=
  h.append hnext fun x hx _ _ c _ => Lexeme.extend_pending_of_isSeparate (hseparate x hx) c

theorem isCut_gap : IsCut [.gap] := .of_separate (by simp [Lexeme.Spelled]) (.singleton _)

theorem isCut_operator {s : String} (h : s.toList ∈ operators) : IsCut (Code.operator s) :=
  .of_separate (by simp [Code.operator, Lexeme.Spelled, h])
    (by simp [Code.operator, Lexeme.isSeparate])

theorem isCut_names {l : Lexeme} {w : String} (hl : l.Names w) (hw : isWord w = true) :
    IsCut [l] := by
  refine ⟨List.forall_mem_singleton.mpr ?_, .singleton _⟩
  rcases hl with rfl | ⟨supplier, rfl⟩ <;> exact hw

/-- A star runs into no other star and into no name. -/
theorem apart_star {b : Lexeme} (h : b = .symbol "*" ∨ ∃ w, isWord w = true ∧ b.Names w) :
    Lexeme.Apart (.symbol "*") b := by
  have hstar : ∀ op ∈ operators, op.head? = some '*' → op.tail ∈ [[], ['=']] := by decide
  have hnext : ∀ {c : Char}, c ≠ '=' → (Lexeme.symbol "*").pending.extend c = none := by
    intro c hc
    have hop : ['*', c] ∉ operators := fun hmem => by simpa [hc] using hstar _ hmem rfl
    simpa [Lexeme.pending, Mode.extend] using hop
  intro c hc
  refine hnext fun heq => ?_
  subst heq
  rcases h with rfl | ⟨w, hw, hb⟩
  · exact absurd hc (by decide)
  · obtain ⟨first, rest, hfirst, hstart⟩ := Text.exists_cons_of_isWord hw
    have htext : b.text = w := by rcases hb with rfl | ⟨supplier, rfl⟩ <;> rfl
    rw [htext, hfirst] at hc
    obtain rfl : first = '=' := by simpa using hc
    exact absurd hstart.1 (by decide)

theorem isCut_star : IsCut [.symbol "*"] := by
  have hstar : "*".toList ∈ operators := by decide
  exact ⟨by simpa [Lexeme.Spelled] using hstar, .singleton _⟩

/-- A space and a star behind a type. -/
theorem isCut_pointer (h : IsCut code) : IsCut (code ++ [Lexeme.gap, Lexeme.symbol "*"]) := by
  have hstar := isCut_gap.separate_append isCut_star (by simp [Lexeme.isSeparate])
  exact h.append_separate hstar (by simp [Lexeme.isSeparate])

theorem isCut_typeCode (hnamed : cx.program.Named cx.target) (hc : typeCode cx d ty = .ok code) :
    IsCut code := by
  induction ty generalizing code with
  | null => simp [typeCode, Context.unmappedType] at hc
  | bool =>
      obtain rfl := Except.ok.inj hc
      exact isCut_names (.inr ⟨_, rfl⟩) (w := "bool") (by decide)
  | int kind =>
      obtain rfl := Except.ok.inj hc
      cases d <;> cases kind <;>
        first
        | exact isCut_names (.inl rfl) (by decide)
        | exact isCut_names (.inr ⟨_, rfl⟩) (by decide)
  | float kind =>
      cases kind <;> obtain rfl := Except.ok.inj hc <;> exact isCut_names (.inl rfl) (by decide)
  | string =>
      obtain rfl := Except.ok.inj hc
      have hchar :
          ∀ {w : String}, isWord w = true → IsCut [.word w, .gap, .word "char"] := fun hw =>
        .of_separate (by
          have hchar : isWord "char" = true := by decide
          simp [Lexeme.Spelled, hw, hchar]) (by simp [Lexeme.isSeparate])
      cases d with
      | standard => exact isCut_pointer (hchar (w := "const") (by decide))
      | openCL => exact isCut_pointer (hchar (w := "constant") (by decide))
  | classStorage id =>
      obtain ⟨c, hclass, hc⟩ := Result.bind_eq_ok.mp hc
      obtain rfl := Except.ok.inj hc
      exact isCut_names (.inl rfl) (hnamed.className hclass).1
  | classRef id =>
      obtain ⟨c, hclass, hc⟩ := Result.bind_eq_ok.mp hc
      obtain rfl := Except.ok.inj hc
      exact isCut_pointer (isCut_names (.inl rfl) (hnamed.className hclass).1)
  | array element storage length ih =>
      obtain ⟨inner, hinner, hc⟩ := Result.bind_eq_ok.mp hc
      obtain rfl := Except.ok.inj hc
      unfold pointerTo
      split
      case isTrue hstar =>
        have hlast := (spelling_typeCode hnamed hinner).getLast?_of_endsInStar hstar
        refine (ih hinner).append isCut_star fun x hx y hy => ?_
        rw [hlast] at hx
        obtain rfl := Option.some.inj hx
        exact apart_star (.inl (by simpa using hy.symm))
      case isFalse => exact isCut_pointer (ih hinner)
  | void | enumeration =>
      obtain rfl := Except.ok.inj hc
      exact isCut_names (.inl rfl) (by decide)

theorem isCut_beforeName (hnamed : cx.program.Named cx.target) (hc : typeCode cx d ty = .ok code)
    {name : String} (hname : isWord name = true) :
    IsCut (beforeName code ++ [Lexeme.word name]) := by
  have htype := isCut_typeCode hnamed hc
  have hword : IsCut [.word name] := isCut_names (.inl rfl) hname
  unfold beforeName
  split
  case isTrue hstar =>
    have hlast := (spelling_typeCode hnamed hc).getLast?_of_endsInStar hstar
    refine htype.append hword fun x hx y hy => ?_
    rw [hlast] at hx
    obtain rfl := Option.some.inj hx
    exact apart_star (.inr ⟨name, hname, .inl (by simpa using hy.symm)⟩)
  case isFalse =>
    exact (htype.append_separate isCut_gap (by simp [Lexeme.isSeparate])).separate_append hword
      (by simp [Lexeme.isSeparate])

theorem isCut_declaration (hnamed : cx.program.Named cx.target) {name : String}
    (hname : isWord name = true) (hc : declaration cx d ty (.word name) = .ok code) :
    IsCut code := by
  obtain ⟨⟨lengths, base⟩, -, hc⟩ := Result.bind_eq_ok.mp hc
  obtain ⟨type, htype, hc⟩ := Result.bind_eq_ok.mp hc
  obtain rfl := Except.ok.inj hc
  have hsymbols : ∀ s ∈ ["[", "]"], (Lexeme.symbol s).Spelled :=
    (by decide : ∀ s ∈ ["[", "]"], s.toList ∈ operators)
  have hlength (n : UInt32) : IsCut [.symbol "[", .number (toString n.toNat), .symbol "]"] := by
    have hnumber : (Lexeme.number (toString n.toNat)).Spelled := (isNumeral_toString n.toNat).number
    exact .of_separate (by simp [-Nat.toString_eq_repr, hsymbols, hnumber])
      (by simp [Lexeme.isSeparate])
  have hdimensions : ∀ {front : Code} (lengths : List UInt32), IsCut front → IsCut (front ++
      lengths.flatMap fun n =>
        [Lexeme.symbol "[", Lexeme.number (toString n.toNat), Lexeme.symbol "]"]) := by
    intro front lengths hfront
    induction lengths generalizing front with
    | nil => simpa using hfront
    | cons n lengths ih =>
        simpa using ih (hfront.append_separate (hlength n) (by simp [Lexeme.isSeparate]))
  simpa using hdimensions lengths (isCut_beforeName hnamed htype hname)

theorem isCut_zeros : IsCut zeros := by
  have hsymbols : ∀ s ∈ ["=", "\x7b", "\x7d"], (Lexeme.symbol s).Spelled :=
    (by decide : ∀ s ∈ ["=", "\x7b", "\x7d"], s.toList ∈ operators)
  have hzero : (Lexeme.number "0").Spelled := (by decide : isNumber "0" = true)
  have hgap : Lexeme.gap.Spelled := trivial
  exact .of_separate (by simp [zeros, Code.operator, hsymbols, hzero, hgap])
    (by simp [zeros, Code.operator, Lexeme.isSeparate])

theorem eq_star_of_mem_typeCode (hc : typeCode cx d ty = .ok code) {s : String}
    (hs : .symbol s ∈ code.tokens) : s = "*" := by
  induction ty generalizing code with
  | null => simp [typeCode, Context.unmappedType] at hc
  | int kind =>
      obtain rfl := Except.ok.inj hc
      exact absurd hs (symbol_not_mem_intType d kind s)
  | float kind => cases kind <;> obtain rfl := Except.ok.inj hc <;> simp at hs
  | string =>
      obtain rfl := Except.ok.inj hc
      cases d <;> simpa [Dialect.stringType, Dialect.readOnly] using hs
  | classStorage id =>
      obtain ⟨c, -, hc⟩ := Result.bind_eq_ok.mp hc
      obtain rfl := Except.ok.inj hc
      simp at hs
  | classRef id =>
      obtain ⟨c, -, hc⟩ := Result.bind_eq_ok.mp hc
      obtain rfl := Except.ok.inj hc
      simpa using hs
  | array element storage length ih =>
      obtain ⟨inner, hinner, hc⟩ := Result.bind_eq_ok.mp hc
      obtain rfl := Except.ok.inj hc
      unfold pointerTo at hs
      split at hs <;> simp at hs <;> grind
  | bool | void | enumeration =>
      obtain rfl := Except.ok.inj hc
      simp at hs

theorem evaluates_declaration {name : String} (hc : declaration cx d ty (.word name) = .ok code) :
    Reading.Evaluates code.tokens 0 := by
  obtain ⟨⟨lengths, base⟩, -, hc⟩ := Result.bind_eq_ok.mp hc
  obtain ⟨type, htype, hc⟩ := Result.bind_eq_ok.mp hc
  obtain rfl := Except.ok.inj hc
  refine .of_plain fun s hs => ?_
  have hmem : s = "*" ∨ s ∈ ["[", "]"] := by
    have hfront : (beforeName type).tokens = type.tokens := by
      unfold beforeName
      split <;> simp
    simp only [Code.tokens_append, hfront, List.mem_append] at hs
    rcases hs with hs | hs
    · exact .inl (eq_star_of_mem_typeCode htype hs)
    · obtain ⟨l, hl, htoken⟩ := List.mem_filterMap.mp hs
      rcases List.mem_cons.mp hl with rfl | hl
      · cases htoken
      · obtain ⟨n, -, hl⟩ := List.mem_flatMap.mp hl
        simp only [List.mem_cons, List.not_mem_nil, or_false] at hl
        rcases hl with rfl | rfl | rfl <;> cases htoken <;> simp
  have hplain : ∀ s ∈ ["*", "[", "]"], s ∉ ["(", ")", "++", "--"] := by decide
  exact hplain s (by simpa using hmem)

end CFamily

end Emitter
