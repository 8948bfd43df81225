import Emitter.Proofs.Statement.Declarations
import Emitter.Proofs.Statement.Warnings

/-!
# What C statements evaluate

A printed statement evaluates what C reaches of its expressions, apart from the initializers that
are dropped, and the construction of its locals. Its text is read as the tokens of the printed code,
so the effects are those of the text.
-/

namespace Emitter

open Layout Program Reading

namespace Program

/-- The expressions of the statement itself, apart from the initializer of what is stored in
place. -/
def Stmt.ownPrinted : Stmt → List Expr
  | .declare decl => if decl.ty.isStorage then [] else decl.value.toList
  | s => s.exprs

/-- The expressions in the statement that are printed in C. -/
def Stmt.printed (s : Stmt) : List Expr := s.collect true Stmt.ownPrinted

/-- What constructing a value of the type in place evaluates: the function of the class innermost,
once for the loops that count through all arrays around it. -/
def constructions (p : Program) : Ty → List String
  | .classStorage id =>
    match p.needsConstruction id with
    | .ok true => [CFamily.constructName (p.className id)]
    | _ => []
  | .array element true length =>
    match p.holdsConstructed (.array element true length) with
    | .ok true => "++" :: p.constructions element
    | _ => []
  | _ => []

end Program

namespace Context

variable {cx : Context} {d : Dialect} {legible : Prop} {e : Expr} {s : Stmt} {code : Code}
  {steps : List Step}

def ownConstructions (cx : Context) : Stmt → List String
  | .declare decl => cx.program.constructions decl.ty
  | _ => []

/-- The constructions of the locals in the statement. A local in the head of a loop has none. -/
def constructions (cx : Context) (s : Stmt) : List String := s.collect false cx.ownConstructions

/-- What C reaches of the statement. -/
def reachedIn (cx : Context) (s : Stmt) : Multiset String :=
  (s.printed.map cx.reached).sum + cx.constructions s

/-- The statement is no target code, and its text is read as the tokens of its code: its names are
identifiers, and no number in it stands where it is read as something else. -/
def isReadable (cx : Context) : Stmt → Bool
  | .native _ => false
  | s => s.ownLocals.all (fun decl => isWord decl.name) &&
      s.ownPrinted.all fun e => e.everywhere Expr.isNamed && e.everywhere cx.isLegible

end Context

namespace Step

/-- The tokens of the code that steps print. -/
def tokens (steps : List Step) : List Token := Code.tokens (steps.flatMap Step.code)

/-- The steps print code with the effects, which something separate has to follow. Its text is read
as its tokens if it is legible. -/
structure Phrase (legible : Prop) (steps : List Step) (effects : Multiset String) : Prop where
  evaluates : Evaluates (tokens steps) effects
  scans : legible → Scans (texts steps) (tokens steps)
  inline : legible → ∀ step ∈ steps, step.isInline = true

/-- The steps print code with the effects, whatever follows. -/
structure Sentence (legible : Prop) (steps : List Step) (effects : Multiset String) : Prop where
  concludes : Concludes (tokens steps) effects
  settles : legible → Settles (texts steps) (tokens steps)
  inline : legible → ∀ step ∈ steps, step.isInline = true

variable {legible : Prop} {steps rest : List Step} {effects more : Multiset String} {code : Code}

theorem Phrase.of_code (code : Code) (hsteps : steps.flatMap Step.text = code.text.toList)
    (htokens : tokens steps = code.tokens) (hinline : ∀ step ∈ steps, step.isInline = true)
    (h : Evaluates code.tokens effects) (hcut : legible → CFamily.IsCut code) :
    Phrase legible steps effects where
  evaluates := htokens ▸ h
  scans hl := by
    rw [htokens, texts, hsteps]
    exact (hcut hl).scans
  inline _ := hinline

theorem Phrase.put (h : Evaluates code.tokens effects) (hcut : legible → CFamily.IsCut code) :
    Phrase legible [.put code] effects :=
  .of_code code (by simp [Step.text]) (by simp [tokens, Step.code]) (by simp [isInline]) h hcut

theorem Phrase.nil : Phrase legible [] 0 where
  evaluates := Concludes.nil.evaluates
  scans _ := Scans.nil
  inline _ := by simp

/-- A space in front. -/
theorem Phrase.spaced (h : Phrase legible steps effects) :
    Phrase legible (.put [.gap] :: steps) effects where
  evaluates := by simpa [tokens, Step.code] using h.evaluates
  scans hl := by
    have hspaced := (Settles.space (c := ' ') (by simp)).append_scans (h.scans hl)
    simpa [tokens, texts, Step.code, Step.text, Code.text, Lexeme.text] using hspaced
  inline hl := by simpa [isInline] using h.inline hl

theorem Sentence.nil : Sentence legible [] 0 where
  concludes := .nil
  settles _ := fun rest => by simp [texts, tokens]
  inline _ := by simp

theorem Sentence.of_pure (h : (pure () : Emit Unit) = ⟨steps, .ok ()⟩) :
    Sentence legible steps 0 := by
  obtain ⟨-, rfl⟩ := Emit.pure_eq_ok.mp h
  exact .nil

theorem Sentence.append (h : Sentence legible steps effects) (h' : Sentence legible rest more) :
    Sentence legible (steps ++ rest) (effects + more) where
  concludes := by simpa [tokens] using h.concludes.append h'.concludes
  settles hl := by simpa [tokens, texts] using (h.settles hl).append (h'.settles hl)
  inline hl step hstep :=
    (List.mem_append.mp hstep).elim (h.inline hl step) (h'.inline hl step)

/-- A semicolon ends the line. -/
theorem Phrase.line (h : Phrase legible steps effects) :
    Sentence legible (steps ++ [Step.put [.symbol ";"], Step.newline]) effects where
  concludes := by
    have hplain : changes ";" = [] := by decide
    simpa [tokens, Step.code, hplain] using h.evaluates.symbol (s := ";") (by decide)
  settles hl := by
    simpa [tokens, texts, Step.code, Step.text, Code.text, Lexeme.text] using
      (h.scans hl).append (settles_lineEnd (s := ";") rfl) ⟨';', rfl, by decide⟩
  inline hl step hstep := by
    rcases List.mem_append.mp hstep with hstep | hstep
    · exact h.inline hl step hstep
    · revert hstep
      simp only [List.mem_cons, List.not_mem_nil, or_false]
      rintro (rfl | rfl) <;> rfl

theorem Sentence.phrase (h : Sentence legible steps effects) : Phrase legible steps effects :=
  ⟨h.concludes.evaluates, fun hl => (h.settles hl).scans, h.inline⟩

/-- A line of code. -/
theorem Sentence.line (h : Evaluates code.tokens effects) (hcut : legible → CFamily.IsCut code) :
    Sentence legible [.put (code ++ [Lexeme.symbol ";"]), .newline] effects := by
  have hline := (Phrase.put h hcut).line
  exact ⟨by simpa [tokens, Step.code] using hline.concludes,
    fun hl => by
      simpa [tokens, texts, Step.code, Step.text, Code.text_append] using hline.settles hl,
    fun hl => by simp [isInline]⟩

theorem Sentence.wordLine {w : String} (hw : isWord w = true) :
    Sentence legible [.put [.word w, .symbol ";"], .newline] 0 :=
  have hword : Evaluates (Code.tokens [.word w]) 0 := .word w
  .line hword fun _ => CFamily.isCut_names (.inl rfl) hw

/-- What is one level deeper, on lines of its own. -/
theorem Sentence.deeper (h : Sentence legible steps effects) :
    Sentence legible (.newline :: .indent :: (steps ++ [Step.dedent])) effects where
  concludes := by simpa [tokens, Step.code] using h.concludes
  settles hl := by
    have hnewline := (Settles.space (c := '\n') (by simp)).append (h.settles hl)
    simpa [tokens, texts, Step.code, Step.text] using hnewline
  inline hl := by simpa [isInline, or_imp, forall_and] using h.inline hl

/-- Between braces, one level deeper. -/
theorem Sentence.braced (h : Sentence legible steps effects) :
    Sentence legible (.put [.symbol "\x7b"] :: .newline :: .indent ::
      (steps ++ [Step.dedent, Step.put [.symbol "\x7d"], Step.newline])) effects where
  concludes := by
    have hplain : changes "\x7b" = [] ∧ changes "\x7d" = [] := by decide
    have hopened := (Concludes.symbol (s := "\x7b") (by decide)).append h.concludes
    simpa [tokens, Step.code, hplain] using
      hopened.append (Concludes.symbol (s := "\x7d") (by decide))
  settles hl := by
    have hblock := ((settles_lineEnd (s := "\x7b") rfl).append (h.settles hl)).append
      (settles_lineEnd (s := "\x7d") rfl)
    simpa [tokens, texts, Step.code, Step.text, Code.toList_text, Lexeme.text] using hblock
  inline hl := by simpa [isInline, or_imp, forall_and] using h.inline hl

end Step

namespace CFamily

variable {cx : Context} {d : Dialect} {legible : Prop} {ty : Ty} {steps : List Step}

/-- The loop that counts increments its counter. -/
theorem sentence_countingLoop (depth : Nat) (n : UInt32) :
    Step.Sentence legible [.put (countingLoop (counter depth) n)] {"++"} where
  concludes := by
    have hfront : Reading.Evaluates (Code.tokens [.word "int", .gap, counter depth, .gap,
        .symbol "=", .gap, .number "0", .symbol ";", .gap, counter depth, .gap, .symbol "<", .gap,
        .number (toString n.toNat), .symbol ";", .gap, counter depth]) 0 :=
      .of_plain (by simp [counter])
    have hchanges : (changes "++" : Multiset String) = {"++"} := rfl
    have hcounted := (hfront.symbol (s := "++") (by decide)).evaluates.parenthesized
    have hloop := (Concludes.keyword (w := "for") (by decide)).append hcounted
    simpa [Step.tokens, Step.code, countingLoop, counter, hchanges] using hloop
  settles _ := by
    have hcut := (isCut_countingLoop depth n).settles (by simp [countingLoop, Lexeme.isSeparate])
    simpa [Step.texts, Step.tokens, Step.text, Step.code] using hcut
  inline _ := by simp [Step.isInline]

/-- The call that constructs what is in the place. -/
theorem sentence_constructCall {place : Code} (name : String)
    (hl : legible → isWord name = true ∧ (cx.target = .cFamily d) ∧
      ∃ tree w, Piece cx.target true 12 place tree ∧ place.head? = some (.word w))
    (hplace : Reading.Evaluates place.tokens 0) : Step.Sentence legible
      [.put (.word (constructName name) :: Code.parenthesized (.symbol "&" :: place) ++
        [Lexeme.symbol ";"]), .newline] {constructName name} := by
  have hfunction : constructName name ∉ "sizeof" :: idleNames := by
    have hplain : ∀ w ∈ "sizeof" :: idleNames, '_' ∉ w.toList := by decide
    exact fun hmem => hplain _ hmem (by simp [constructName, functionName])
  have haddress : Reading.Evaluates (Code.tokens (.symbol "&" :: place)) 0 := by
    have hplain : changes "&" = [] := by decide
    simpa [hplain] using (Concludes.symbol (s := "&") (by decide)).append_evaluates hplace
  have hcall := concludes_call _ (.inl rfl) (fun heq => hfunction (heq ▸ List.mem_cons_self ..))
    (.cons haddress .nil)
  rw [callEffects_of_not_mem hfunction] at hcall
  refine .line (by simpa [Code.commaSeparated] using hcall.evaluates) fun hlegible => ?_
  obtain ⟨hname, ht, tree, w, hpiece, hhead⟩ := hl hlegible
  have hconstruct : isWord "Construct" = true := by decide
  obtain ⟨hword, hcontrol⟩ := isWord_functionName hname hconstruct cx.target
  have hcut : ∀ line ∈ elementLines (constructName name) 0 0 place [], IsCut line.2 :=
    isCut_elementLines ht hword hcontrol 0 0 hpiece hhead []
  exact (hcut _ (List.mem_singleton_self _)).left

theorem evaluates_element (depth : Nat) {place : Code} (hplace : Reading.Evaluates place.tokens 0) :
    Reading.Evaluates (Code.tokens (place ++ [.symbol "[", counter depth, .symbol "]"])) 0 := by
  have hplain : changes "]" = [] := by decide
  have hopened := hplace.infixed (.word (counterName depth)) (s := "[") (by decide) (by decide)
  simpa [counter, counterName, hplain] using (hopened.symbol (s := "]") (by decide)).evaluates

theorem exists_piece_element (depth : Nat) {place : Code}
    (h : ∃ tree w, Piece cx.target true 12 place tree ∧ place.head? = some (.word w)) :
    ∃ tree w, Piece cx.target true 12 (place ++ [.symbol "[", counter depth, .symbol "]"]) tree ∧
      (place ++ [.symbol "[", counter depth, .symbol "]"]).head? = some (.word w) := by
  obtain ⟨tree, w, hpiece, hhead⟩ := h
  obtain ⟨hword, hcontrol⟩ := isWord_counterName depth cx.target
  have hcounter : Piece cx.target true 13 [counter depth] (.name (counterName depth)) :=
    .name (.inl rfl) hword hcontrol
  exact ⟨_, w, hpiece.element (hcounter.mono (by decide)), by simp [hhead]⟩

/-- What is printed behind a declaration evaluates the constructions of its type. -/
theorem sentence_constructCalls (ht : cx.target = .cFamily d)
    (hnamed : legible → cx.program.Named cx.target) {depth : Nat} {place : Code}
    (hpiece : legible → ∃ tree w, Piece cx.target true 12 place tree ∧ place.head? = some (.word w))
    (hplace : Reading.Evaluates place.tokens 0)
    (h : constructCalls cx depth place ty = ⟨steps, .ok ()⟩) :
    Step.Sentence legible steps (cx.program.constructions ty) := by
  induction ty generalizing depth place steps with
  | classStorage id =>
      obtain ⟨needed, hneeded, h⟩ := Emit.liftM_bind_eq_ok.mp h
      have hneeded := lookedUp_eq_ok hneeded
      cases needed with
      | false => simpa [Program.constructions, hneeded] using Step.Sentence.of_pure h
      | true =>
          obtain ⟨c, hclass, h⟩ := Emit.liftM_bind_eq_ok.mp h
          obtain rfl := Emit.line_eq_ok h
          have hname := className_of_classOf hclass
          have hcall := @sentence_constructCall cx d legible _ c.name
            (fun hl => ⟨((hnamed hl).className hclass).1, ht, hpiece hl⟩) hplace
          simpa [Program.constructions, hneeded, hname] using hcall
  | array element storage length ih =>
      cases storage with
      | false => exact .of_pure h
      | true =>
          obtain ⟨needed, hneeded, h⟩ := Emit.liftM_bind_eq_ok.mp h
          have hneeded : cx.program.holdsConstructed (.array element true length) = .ok needed :=
            lookedUp_eq_ok hneeded
          cases needed with
          | false => simpa [Program.constructions, hneeded] using Step.Sentence.of_pure h
          | true =>
              cases length with
              | none => cases (Emit.mk.inj h).2
              | some n =>
                  obtain ⟨rest, hrest, rfl⟩ := Emit.ofSteps_bind_eq_ok.mp h
                  obtain ⟨inner, hinner, rfl⟩ := Emit.indented_eq_ok.mp hrest
                  have hinner := ih (fun hl => exists_piece_element depth (hpiece hl))
                    (evaluates_element depth hplace) hinner
                  have hloop := (sentence_countingLoop depth n).append hinner.deeper
                  simpa [Program.constructions, hneeded] using hloop
  | _ => exact .of_pure h

end CFamily

namespace Context

variable {cx : Context} {d : Dialect} {legible : Prop} {e : Expr} {s : Stmt} {code : Code}
  {steps : List Step}

/-- The text of a legible expression is cut into its lexemes. -/
theorem isCut_code (hl : legible → cx.program.Named cx.target ∧ e.everywhere Expr.isNamed = true ∧
    e.everywhere cx.isLegible = true) (hc : cx.code e = .ok code) (h : legible) :
    CFamily.IsCut code := by
  obtain ⟨hnamed, hname, hlegible⟩ := hl h
  exact .of_tidy (stretch_code hnamed hname (fun _ => hlegible) hc).toTidy

theorem isReadable_iff : cx.isReadable s = true ↔ (∀ text, s ≠ .native text) ∧
    (∀ decl ∈ s.ownLocals, isWord decl.name = true) ∧
      ∀ e ∈ s.ownPrinted, e.everywhere Expr.isNamed = true ∧ e.everywhere cx.isLegible = true := by
  cases s <;> simp [isReadable]

theorem phrase_declareLocal (ht : cx.target = .cFamily d) {decl : VarDecl}
    (hl : legible → cx.program.Named cx.target ∧ cx.isReadable (.declare decl) = true)
    (h : CFamily.declareLocal cx d decl = ⟨steps, .ok ()⟩) :
    Step.Phrase legible steps (((Stmt.declare decl).ownPrinted.map cx.reached).sum) := by
  have hname :
      legible → cx.program.Named cx.target ∧ isWord (cx.target.localName decl.name) = true :=
    fun hlegible => ⟨(hl hlegible).1, (isWord_localWord cx
      ((isReadable_iff.mp (hl hlegible).2).2.1 decl (List.mem_singleton_self decl))).1⟩
  obtain ⟨type, htype, hsteps⟩ := CFamily.declareLocal_eq_ok h
  have hdeclared := CFamily.evaluates_declaration htype
  have hcut : legible → CFamily.IsCut type := fun hlegible =>
    CFamily.isCut_declaration (hname hlegible).1 (hname hlegible).2 htype
  rcases hsteps with ⟨hstorage, rfl⟩ | ⟨hstorage, hnone, rfl⟩ | ⟨hstorage, e, init, hsome, he, rfl⟩
  · have hprinted : (Stmt.declare decl).ownPrinted = [] := by simp [Stmt.ownPrinted, hstorage]
    have hplain : Reading.Evaluates (type ++ CFamily.zeros).tokens 0 := by
      have hbrace : Reading.Evaluates [.symbol "\x7b", .number "0", .symbol "\x7d"] 0 :=
        .of_plain (by simp)
      simpa [CFamily.zeros, Code.operator] using
        hdeclared.infixed hbrace (s := "=") (by decide) (by decide)
    rw [hprinted]
    -- A warning among the steps prints nothing.
    refine .of_code (type ++ CFamily.zeros) ?_ ?_ ?_ hplain fun hlegible =>
      (hcut hlegible).append_separate CFamily.isCut_zeros
        (by simp [CFamily.zeros, Code.operator, Lexeme.isSeparate])
    · split_ifs <;> simp [Step.text]
    · split_ifs <;> simp [Step.tokens, Step.code]
    · split_ifs <;> simp [Step.isInline]
  · have hprinted : (Stmt.declare decl).ownPrinted = [] := by simp [Stmt.ownPrinted, hnone]
    simpa [hprinted] using Step.Phrase.put hdeclared hcut
  · have hprinted : (Stmt.declare decl).ownPrinted = [e] := by
      simp [Stmt.ownPrinted, hstorage, hsome]
    have hinit : legible → CFamily.IsCut init := isCut_code (fun hlegible => ⟨(hl hlegible).1,
      (isReadable_iff.mp (hl hlegible).2).2.2 e (by simp [hprinted])⟩) he
    have hassigned :
        Reading.Evaluates (type ++ Code.operator "=" ++ init).tokens (cx.reached e) := by
      simpa [Code.operator] using hdeclared.infixed (evaluates_operand ht e init he) (s := "=")
        (by decide) (by decide)
    rw [hprinted]
    refine .of_code (type ++ Code.operator "=" ++ init)
      (by simp [Step.text]) (by simp [Step.tokens, Step.code]) (by simp [Step.isInline])
      (by simpa using hassigned) fun hlegible => ?_
    have hfront := (hcut hlegible).append_separate (CFamily.isCut_operator (s := "=") (by decide))
      (by simp [Code.operator, Lexeme.isSeparate])
    exact hfront.separate_append (hinit hlegible) (by simp [Code.operator, Lexeme.isSeparate])

theorem phrase_simple (ht : cx.target = .cFamily d)
    (hl : legible → cx.program.Named cx.target ∧ cx.isReadable s = true)
    (h : cx.simple s = ⟨steps, .ok ()⟩) :
    Step.Phrase legible steps ((s.ownPrinted.map cx.reached).sum) := by
  have hcut : ∀ {e code}, e ∈ s.ownPrinted → cx.code e = .ok code → legible → CFamily.IsCut code :=
    fun he hc => isCut_code (fun hlegible => ⟨(hl hlegible).1,
      (isReadable_iff.mp (hl hlegible).2).2.2 _ he⟩) hc
  cases s with
  | eval e =>
      obtain ⟨code, hcode, hput⟩ := Emit.liftM_bind_eq_ok.mp h
      obtain rfl := Emit.ofSteps_eq_ok.mp hput
      simpa [Stmt.ownPrinted, Stmt.exprs] using
        Step.Phrase.put (evaluates_operand ht e code hcode)
          (hcut (by simp [Stmt.ownPrinted, Stmt.exprs]) hcode)
  | declare decl =>
      change cx.declareLocal decl = _ at h
      simp only [declareLocal, ht] at h
      exact phrase_declareLocal ht hl h
  | assign target op value =>
      obtain ⟨code, hcode, hput⟩ := Emit.liftM_bind_eq_ok.mp h
      obtain rfl := Emit.ofSteps_eq_ok.mp hput
      simp only [assign, ht] at hcode
      obtain ⟨place, hplace, hcode⟩ := Result.bind_eq_ok.mp hcode
      obtain ⟨given, hgiven, hcode⟩ := Result.bind_eq_ok.mp hcode
      obtain rfl := Except.ok.inj hcode
      have hsymbol : op.text ∉ ["(", ")"] ∧ changes op.text = [] := by cases op <;> decide
      have hassigned : Reading.Evaluates (place ++ Code.operator op.text ++ given).tokens
          (cx.reached target + cx.reached value) := by
        simpa [Code.operator] using (evaluates_operand ht target place hplace).infixed
          (evaluates_operand ht value given hgiven) hsymbol.1 hsymbol.2
      refine .put (by simpa [Stmt.ownPrinted, Stmt.exprs] using hassigned) fun hlegible => ?_
      have hplace := hcut (by simp [Stmt.ownPrinted, Stmt.exprs]) hplace hlegible
      have hgiven := hcut (by simp [Stmt.ownPrinted, Stmt.exprs]) hgiven hlegible
      exact (hplace.append_separate (CFamily.isCut_operator (plain_assignOp op).1)
        (by simp [Code.operator, Lexeme.isSeparate])).separate_append hgiven
          (by simp [Code.operator, Lexeme.isSeparate])
  | _ =>
      exact absurd h (by
        simp [simple, unsupported, liftM, monadLift, MonadLift.monadLift, Emit.ofResult])

/-- A simple statement on its line, and the construction of its local behind it. -/
theorem sentence_simpleLine (ht : cx.target = .cFamily d)
    (hl : legible → cx.program.Named cx.target ∧ cx.isReadable s = true)
    (h : cx.simpleLine s = ⟨steps, .ok ()⟩) :
    Step.Sentence legible steps ((s.ownPrinted.map cx.reached).sum + cx.ownConstructions s) := by
  obtain ⟨⟨⟩, first, rest, hfirst, hrest, rfl⟩ := Emit.bind_eq_ok.mp h
  obtain ⟨last, hlast, rfl⟩ := Emit.ofSteps_bind_eq_ok.mp hrest
  have hconstructed : Step.Sentence legible last (cx.ownConstructions s) := by
    simp only [afterSimple, ht] at hlast
    cases s with
    | declare decl =>
        have hword : legible → isWord (cx.target.localName decl.name) = true ∧
            cx.target.localName decl.name ∉ controlWords cx.target := fun hlegible =>
          isWord_localWord cx
            ((isReadable_iff.mp (hl hlegible).2).2.1 decl (List.mem_singleton_self decl))
        exact CFamily.sentence_constructCalls ht (fun hlegible => (hl hlegible).1)
          (fun hlegible => ⟨_, _, (Piece.name (.inl rfl) (hword hlegible).1 (hword hlegible).2).mono
            (by decide), rfl⟩) (.word _) hlast
    | _ => exact .of_pure hlast
  have hline := (phrase_simple ht hl hfirst).line.append hconstructed
  simpa using hline

end Context

namespace Step

variable {legible : Prop} {steps : List Step} {effects : Multiset String}

theorem Sentence.gap : Sentence legible [.put [.gap]] 0 where
  concludes := by simpa [tokens, Step.code] using Concludes.nil
  settles _ := by
    simpa [tokens, texts, Step.code, Step.text, Code.text, Lexeme.text] using
      Settles.space (c := ' ') (by simp)
  inline _ := by simp [isInline]

/-- The steps start with a space or a new line. -/
def StartsApart (steps : List Step) : Prop := ∃ c ∈ (texts steps).head?, c ∈ separateChars

/-- A keyword in front of what starts with a space or on a new line. -/
theorem Sentence.behindWord {w : String} (h : Sentence legible steps effects)
    (hapart : StartsApart steps) (hw : w ∈ ["do", "else"]) :
    Sentence legible (.put [.word w] :: steps) effects where
  concludes := by
    have hkeyword : Concludes [.word w] 0 := .keyword (by simp at hw ⊢; tauto)
    simpa [tokens, Step.code] using hkeyword.append h.concludes
  settles hl := by
    have hword : ∀ w ∈ ["do", "else"], isWord w = true := by decide
    simpa [tokens, texts, Step.code, Step.text, Code.text, Lexeme.text] using
      (scans_word (hword w hw)).append (h.settles hl) hapart
  inline hl := by simpa [isInline] using h.inline hl

end Step

namespace Context

variable {cx : Context} {d : Dialect} {legible : Prop} {e : Expr} {s : Stmt} {code : Code}
  {steps : List Step} {effects : Multiset String}

theorem sentence_nested {printed : Emit Unit}
    (ih : ∀ inner, printed = ⟨inner, .ok ()⟩ → Step.Sentence legible inner effects)
    (h : nested s printed = ⟨steps, .ok ()⟩) :
    Step.Sentence legible steps effects ∧ Step.StartsApart steps := by
  unfold nested at h
  split at h
  · obtain ⟨inner, hinner, rfl⟩ := Emit.ofSteps_bind_eq_ok.mp h
    exact ⟨by simpa using Step.Sentence.gap.append (ih inner hinner), ' ', rfl, by decide⟩
  · obtain ⟨rest, hrest, rfl⟩ := Emit.ofSteps_bind_eq_ok.mp h
    obtain ⟨inner, hinner, rfl⟩ := Emit.indented_eq_ok.mp hrest
    exact ⟨(ih inner hinner).deeper, '\n', rfl, by decide⟩

theorem sentence_alternative {printed : Emit Unit}
    (ih : ∀ inner, printed = ⟨inner, .ok ()⟩ → Step.Sentence legible inner effects)
    (h : alternative s printed = ⟨steps, .ok ()⟩) : Step.Sentence legible steps effects := by
  obtain ⟨rest, hrest, rfl⟩ := Emit.ofSteps_bind_eq_ok.mp h
  split at hrest
  · obtain ⟨inner, hinner, rfl⟩ := Emit.ofSteps_bind_eq_ok.mp hrest
    have hspaced := Step.Sentence.gap.append (ih inner hinner)
    simpa using hspaced.behindWord ⟨' ', rfl, by decide⟩ (w := "else") (by decide)
  · obtain ⟨hnested, hapart⟩ := sentence_nested ih hrest
    exact hnested.behindWord hapart (by decide)

theorem sentence_head (ht : cx.target = .cFamily d) {keyword : String}
    (hkeyword : keyword ∈ ["if", "while"])
    (hl : legible → cx.program.Named cx.target ∧ e.everywhere Expr.isNamed = true ∧
      e.everywhere cx.isLegible = true) (h : cx.head keyword e = ⟨steps, .ok ()⟩) :
    Step.Sentence legible steps (cx.reached e) := by
  obtain ⟨code, hcode, rfl⟩ := head_eq_ok h
  refine ⟨?_, fun hlegible => ?_, fun _ => by simp [Step.isInline]⟩
  · have hword : Concludes [.word keyword] 0 := .keyword (by simp at hkeyword ⊢; tauto)
    simpa [Step.tokens, Step.code, Code.parenthesized] using
      hword.append (evaluates_operand ht e code hcode).parenthesized
  · have hword : ∀ w ∈ ["if", "while"], isWord w = true := by decide
    simpa [Step.tokens, Step.code, Code.parenthesized] using
      settles_head (hword keyword hkeyword) (isCut_code hl hcode hlegible).scans

/-! The clauses of a `for` are evaluated in an order of their own and more than once. As a text, the
head has the effects of the three clauses. -/

theorem printed_of_simple (h : cx.simple s = ⟨steps, .ok ()⟩) : s.printed = s.ownPrinted := by
  rw [Stmt.printed, Stmt.collect_eq, children_eq_nil_of_simple h, List.flatMap_nil, List.append_nil]

theorem phrase_startClause (ht : cx.target = .cFamily d) {start : Option Stmt}
    (hl : legible → cx.program.Named cx.target ∧ ∀ s ∈ start, cx.isReadable s = true)
    (h : cx.startClause start = ⟨steps, .ok ()⟩) :
    Step.Phrase legible steps (((start.toList.flatMap Stmt.printed).map cx.reached).sum) := by
  cases start with
  | none =>
      obtain ⟨-, rfl⟩ := Emit.pure_eq_ok.mp h
      exact .nil
  | some s =>
      have hloop : cx.loopStart s = ⟨steps, .ok ()⟩ := h
      simp only [loopStart, ht] at hloop
      obtain ⟨⟨⟩, -, hsimple⟩ := Emit.liftM_bind_eq_ok.mp hloop
      simpa [printed_of_simple hsimple] using
        phrase_simple ht (fun hlegible => ⟨(hl hlegible).1, (hl hlegible).2 s rfl⟩) hsimple

theorem phrase_condClause (ht : cx.target = .cFamily d) {cond : Option Expr}
    (hl : legible → cx.program.Named cx.target ∧
      ∀ e ∈ cond, e.everywhere Expr.isNamed = true ∧ e.everywhere cx.isLegible = true)
    (h : cx.condClause cond = ⟨steps, .ok ()⟩) :
    Step.Phrase legible steps ((cond.toList.map cx.reached).sum) := by
  cases cond with
  | none =>
      obtain ⟨-, rfl⟩ := Emit.pure_eq_ok.mp h
      exact .nil
  | some e =>
      obtain ⟨code, hcode, hput⟩ := Emit.liftM_bind_eq_ok.mp h
      obtain rfl := Emit.ofSteps_eq_ok.mp hput
      have hcut := isCut_code (fun hlegible => ⟨(hl hlegible).1, (hl hlegible).2 e rfl⟩) hcode
      refine .put (by simpa using evaluates_operand ht e code hcode) fun hlegible => ?_
      exact CFamily.isCut_gap.separate_append (hcut hlegible) (by simp [Lexeme.isSeparate])

theorem phrase_advanceClause (ht : cx.target = .cFamily d) {advance : Option Stmt}
    (hl : legible → cx.program.Named cx.target ∧ ∀ s ∈ advance, cx.isReadable s = true)
    (h : cx.advanceClause advance = ⟨steps, .ok ()⟩) :
    Step.Phrase legible steps (((advance.toList.flatMap Stmt.printed).map cx.reached).sum) := by
  cases advance with
  | none =>
      obtain ⟨-, rfl⟩ := Emit.pure_eq_ok.mp h
      exact .nil
  | some s =>
      obtain ⟨rest, hsimple, rfl⟩ := Emit.ofSteps_bind_eq_ok.mp h
      simpa [printed_of_simple hsimple] using
        (phrase_simple ht (fun hlegible => ⟨(hl hlegible).1, (hl hlegible).2 s rfl⟩) hsimple).spaced

theorem sentence_loopHead {first second third : List Step} {start cond advance : Multiset String}
    (hstart : Step.Phrase legible first start) (hcond : Step.Phrase legible second cond)
    (hadvance : Step.Phrase legible third advance) :
    Step.Sentence legible
      (.put [.word "for", .gap, .symbol "("] :: (first ++ Step.put [.symbol ";"] ::
      (second ++ Step.put [.symbol ";"] :: (third ++ [Step.put [.symbol ")"]]))))
        (start + cond + advance) where
  concludes := by
    have hclauses := hstart.evaluates.infixed
      (hcond.evaluates.infixed hadvance.evaluates (s := ";") (by decide) (by decide)) (s := ";")
      (by decide) (by decide)
    have hhead := (Concludes.keyword (w := "for") (by decide)).append hclauses.parenthesized
    simpa [Step.tokens, Step.code, add_assoc] using hhead
  settles hl := by
    have hfor := (settles_keyword (w := "for") (by decide) (c := ' ') (by simp)).append
      (Code.settles_symbol (s := "(") rfl)
    have hsemicolon : Settles ";".toList [.symbol ";"] := Code.settles_symbol rfl
    have hclose : Settles ")".toList [.symbol ")"] := Code.settles_symbol rfl
    have hhead := hfor.append (((hstart.scans hl).append hsemicolon ⟨';', rfl, by decide⟩).append
      (((hcond.scans hl).append hsemicolon ⟨';', rfl, by decide⟩).append
        ((hadvance.scans hl).append hclose ⟨')', rfl, by decide⟩)))
    simpa [Step.tokens, Step.texts, Step.code, Step.text, Code.toList_text, Lexeme.text] using hhead
  inline hl := by
    have hall := And.intro (hstart.inline hl) (And.intro (hcond.inline hl) (hadvance.inline hl))
    simpa [Step.isInline, or_imp, forall_and] using hall

theorem sentence_statements {stmts : List Stmt}
    (ih : ∀ s ∈ stmts, ∀ steps, cx.statement s = ⟨steps, .ok ()⟩ →
      Step.Sentence legible steps (cx.reachedIn s))
    (h : cx.statements stmts = ⟨steps, .ok ()⟩) :
    Step.Sentence legible steps (stmts.map cx.reachedIn).sum := by
  induction stmts generalizing steps with
  | nil => exact .of_pure h
  | cons s rest ihrest =>
      obtain ⟨ihs, ih⟩ := List.forall_mem_cons.mp ih
      obtain ⟨⟨⟩, first, last, hfirst, hlast, rfl⟩ := Emit.bind_eq_ok.mp h
      simpa using (ihs first hfirst).append (ihrest ih hlast)

theorem reachedIn_block (stmts : List Stmt) :
    cx.reachedIn (.block stmts) = (stmts.map cx.reachedIn).sum := by
  have hown : Stmt.ownPrinted (.block stmts) = [] := rfl
  simp only [reachedIn, Stmt.printed, constructions, Stmt.collect, hown, ownConstructions,
    List.nil_append]
  induction stmts with
  | nil => rfl
  | cons s rest ih =>
      simp only [Stmt.collectIn, List.map_append, List.sum_append, ← Multiset.coe_add,
        List.map_cons,
        List.sum_cons, reachedIn, Stmt.printed, constructions, ← ih rfl]
      abel

theorem reachedIn_branch (cond : Expr) (onTrue : Stmt) (onFalse : Option Stmt) :
    cx.reachedIn (.branch cond onTrue onFalse) =
      cx.reached cond + cx.reachedIn onTrue + (onFalse.toList.map cx.reachedIn).sum := by
  cases onFalse <;>
    simp only [reachedIn, Stmt.printed, constructions, Stmt.collect, Stmt.collectClause,
      Stmt.ownPrinted, Stmt.exprs, ownConstructions, List.map_append, List.sum_append,
      ← Multiset.coe_add, List.map_cons, List.map_nil, List.sum_cons, List.sum_nil,
      Option.toList_none, Option.toList_some, Multiset.coe_nil] <;> abel

theorem reachedIn_whileLoop (cond : Expr) (body : Stmt) :
    cx.reachedIn (.whileLoop cond body) = cx.reached cond + cx.reachedIn body := by
  simp only [reachedIn, Stmt.printed, constructions, Stmt.collect, Stmt.ownPrinted, Stmt.exprs,
    ownConstructions, List.map_append, List.sum_append, List.nil_append, List.map_cons,
      List.map_nil,
    List.sum_cons, List.sum_nil]
  abel

theorem reachedIn_doLoop (body : Stmt) (cond : Expr) :
    cx.reachedIn (.doLoop body cond) = cx.reachedIn body + cx.reached cond := by
  have hsame : cx.reachedIn (.doLoop body cond) = cx.reachedIn (.whileLoop cond body) := rfl
  rw [hsame, reachedIn_whileLoop, add_comm]

/-- A local in the clause that advances a loop is declared without being constructed. -/
theorem reachedIn_forLoop (start advance : Option Stmt) (cond : Option Expr) (body : Stmt) :
    cx.reachedIn (.forLoop start cond advance body) =
      (((start.toList.flatMap Stmt.printed).map cx.reached).sum + (cond.toList.map cx.reached).sum +
        ((advance.toList.flatMap Stmt.printed).map cx.reached).sum) + cx.reachedIn body := by
  have hprinted : Stmt.printed = Stmt.collect true Stmt.ownPrinted := rfl
  simp only [reachedIn, hprinted, constructions, Stmt.collect, Stmt.collectClause_eq,
    Stmt.ownPrinted, Stmt.exprs, ownConstructions, List.map_append, List.sum_append, if_true,
    Bool.false_eq_true, if_false, List.nil_append]
  abel

/-- A printed statement evaluates what C reaches of it, in its text if that is legible. -/
theorem sentence_statement (ht : cx.target = .cFamily d) (s : Stmt) :
    (legible → cx.program.Named cx.target ∧ s.everywhere cx.isReadable = true) →
      ∀ steps, cx.statement s = ⟨steps, .ok ()⟩ → Step.Sentence legible steps (cx.reachedIn s) := by
  induction s using Stmt.inductOn with
  | h s ih =>
  intro hl steps h
  have hown : legible → cx.program.Named cx.target ∧ cx.isReadable s = true := fun hlegible =>
    ⟨(hl hlegible).1, (Stmt.everywhere_iff.mp (hl hlegible).2).1⟩
  have ih : ∀ child ∈ s.children, ∀ steps, cx.statement child = ⟨steps, .ok ()⟩ →
      Step.Sentence legible steps (cx.reachedIn child) := fun child hchild =>
    ih child hchild fun hlegible =>
      ⟨(hl hlegible).1, (Stmt.everywhere_iff.mp (hl hlegible).2).2 child hchild⟩
  have hexpr : ∀ {e}, e ∈ s.ownPrinted → legible → cx.program.Named cx.target ∧
      e.everywhere Expr.isNamed = true ∧ e.everywhere cx.isLegible = true := fun he hlegible =>
    ⟨(hl hlegible).1, (isReadable_iff.mp (hown hlegible).2).2.2 _ he⟩
  cases s with
  | block stmts =>
      rw [statement] at h
      obtain ⟨inner, hinner, rfl⟩ := Emit.braced_eq_ok.mp h
      rw [reachedIn_block]
      exact (sentence_statements ih hinner).braced
  | eval e =>
      rw [statement] at h
      simpa [reachedIn, Stmt.printed, constructions, Stmt.collect]
        using sentence_simpleLine ht hown h
  | declare decl =>
      rw [statement] at h
      simpa [reachedIn, Stmt.printed, constructions, Stmt.collect]
        using sentence_simpleLine ht hown h
  | assign target op value =>
      rw [statement] at h
      simpa [reachedIn, Stmt.printed, constructions, Stmt.collect]
        using sentence_simpleLine ht hown h
  | branch cond onTrue onFalse =>
      have ihTrue := ih onTrue (by simp [Stmt.children])
      have hcond := hexpr (e := cond) (by simp [Stmt.ownPrinted, Stmt.exprs])
      rw [reachedIn_branch]
      cases onFalse with
      | none =>
          rw [statement] at h
          obtain ⟨⟨⟩, first, rest, hfirst, hrest, rfl⟩ := Emit.bind_eq_ok.mp h
          have hhead := sentence_head ht (by decide) hcond hfirst
          simpa using hhead.append (sentence_nested ihTrue hrest).1
      | some onFalse =>
          rw [statement] at h
          obtain ⟨⟨⟩, first, rest, hfirst, hrest, rfl⟩ := Emit.bind_eq_ok.mp h
          obtain ⟨⟨⟩, second, last, hsecond, hlast, rfl⟩ := Emit.bind_eq_ok.mp hrest
          have hhead := sentence_head ht (by decide) hcond hfirst
          have hfalse := sentence_alternative (ih onFalse (by simp [Stmt.children])) hlast
          simpa [add_assoc] using hhead.append ((sentence_nested ihTrue hsecond).1.append hfalse)
  | whileLoop cond body =>
      rw [statement] at h
      obtain ⟨⟨⟩, first, rest, hfirst, hrest, rfl⟩ := Emit.bind_eq_ok.mp h
      have hhead := sentence_head ht (by decide)
        (hexpr (by simp [Stmt.ownPrinted, Stmt.exprs])) hfirst
      rw [reachedIn_whileLoop]
      exact hhead.append (sentence_nested (ih body (by simp [Stmt.children])) hrest).1
  | doLoop body cond =>
      rw [statement] at h
      obtain ⟨_, hloop, rfl⟩ := Emit.ofSteps_bind_eq_ok.mp h
      obtain ⟨⟨⟩, first, _, hfirst, hrest, rfl⟩ := Emit.bind_eq_ok.mp hloop
      obtain ⟨⟨⟩, second, last, hsecond, hlast, rfl⟩ := Emit.bind_eq_ok.mp hrest
      obtain rfl := Emit.line_eq_ok hlast
      have hhead := sentence_head ht (by decide)
        (hexpr (by simp [Stmt.ownPrinted, Stmt.exprs])) hsecond
      obtain ⟨hbody, hapart⟩ := sentence_nested (ih body (by simp [Stmt.children])) hfirst
      have hdo := hbody.behindWord hapart (w := "do") (by decide)
      rw [reachedIn_doLoop]
      simpa using hdo.append hhead.phrase.line
  | forLoop start cond advance body =>
      rw [statement] at h
      obtain ⟨⟨⟩, _, rest, hhead, hrest, rfl⟩ := Emit.bind_eq_ok.mp h
      obtain ⟨first, second, third, hstart, hcond, hadvance, rfl⟩ := loopHead_eq_ok hhead
      have hclause : ∀ clause ∈ [start, advance], legible → cx.program.Named cx.target ∧
          ∀ s ∈ clause, cx.isReadable s = true := by
        refine fun clause hclause hlegible => ⟨(hl hlegible).1, fun s hs => ?_⟩
        refine (Stmt.everywhere_iff.mp ((Stmt.everywhere_iff.mp (hl hlegible).2).2 s ?_)).1
        obtain rfl := Option.mem_def.mp hs
        rcases List.mem_pair.mp hclause with rfl | rfl <;> simp [Stmt.children]
      have hhead := sentence_loopHead (phrase_startClause ht (hclause start (by simp)) hstart)
        (phrase_condClause ht (fun hlegible => ⟨(hl hlegible).1, fun e he =>
          (hexpr (by simpa [Stmt.ownPrinted, Stmt.exprs] using he) hlegible).2⟩) hcond)
        (phrase_advanceClause ht (hclause advance (by simp)) hadvance)
      rw [reachedIn_forLoop]
      exact hhead.append (sentence_nested (ih body (by simp [Stmt.children])) hrest).1
  | breakLoop | continueLoop =>
      rw [statement] at h
      obtain rfl := Emit.line_eq_ok h
      exact .wordLine (by decide)
  | returnValue value =>
      rw [statement] at h
      cases value with
      | none =>
          obtain rfl := Emit.line_eq_ok h
          exact .wordLine (by decide)
      | some e =>
          obtain ⟨code, hcode, hline⟩ := Emit.liftM_bind_eq_ok.mp h
          obtain rfl := Emit.line_eq_ok hline
          have hreturned :
              Reading.Evaluates (Code.tokens ([Lexeme.word "return", Lexeme.gap] ++ code))
              (cx.reached e) := by
            simpa using (Concludes.keyword (w := "return") (by decide)).append_evaluates
              (evaluates_operand ht e code hcode)
          have hspaced : CFamily.IsCut [.word "return", .gap] :=
            (CFamily.isCut_names (.inl rfl) (by decide)).append_separate CFamily.isCut_gap
              (by simp [Lexeme.isSeparate])
          refine .line (by simpa [reachedIn, Stmt.printed, constructions, Stmt.collect,
            Stmt.ownPrinted, Stmt.exprs, ownConstructions] using hreturned) fun hlegible => ?_
          exact hspaced.separate_append (isCut_code (hexpr (by simp [Stmt.ownPrinted, Stmt.exprs]))
            hcode hlegible) (by simp [Lexeme.isSeparate])
  | «throwError» message =>
      rw [statement, thrown, ht] at h
      exact absurd h (by simp [unsupported, liftM, monadLift, MonadLift.monadLift, Emit.ofResult])
  | native text =>
      rw [statement] at h
      obtain rfl := Emit.ofSteps_eq_ok.mp h
      have hcopied : legible → False := fun hlegible => by
        simpa [isReadable] using (hown hlegible).2
      exact ⟨.nil, fun hlegible => (hcopied hlegible).elim, fun hlegible => (hcopied hlegible).elim⟩

end Context

namespace Program.Stmt

variable {s : Stmt}

/-- The values of locals in the statement that are not printed. -/
def droppedValues (s : Stmt) : List Expr :=
  (s.locals.filter VarDecl.isDropped).filterMap VarDecl.value

/-- Each expression of a statement is printed, or it is the value of the local that is dropped. -/
theorem exprs_eq (s : Stmt) :
    s.exprs = s.ownPrinted ++ (s.ownLocals.filter VarDecl.isDropped).filterMap VarDecl.value := by
  cases s with
  | declare decl =>
      cases hstorage : decl.ty.isStorage <;> cases hvalue : decl.value <;>
        simp [exprs, ownPrinted, ownLocals, VarDecl.isDropped, hstorage, hvalue]
  | _ => simp [ownPrinted, ownLocals]

theorem droppedValues_eq : s.droppedValues =
    (s.ownLocals.filter VarDecl.isDropped).filterMap VarDecl.value ++
      s.children.flatMap droppedValues := by
  rw [droppedValues, locals_eq, List.filter_append, List.filterMap_append, List.filter_flatMap,
    List.filterMap_flatMap]
  rfl

/-- Each expression in a statement is printed or dropped, as often as it stands there. -/
theorem collect_exprs_perm (s : Stmt) :
    (s.collect true exprs).Perm (s.printed ++ s.droppedValues) := by
  induction s using Stmt.inductOn with
  | h s ih =>
  have hchildren : (s.children.flatMap (collect true exprs)).Perm
      (s.children.flatMap printed ++ s.children.flatMap droppedValues) :=
    (List.Perm.flatMap_left _ ih).trans (List.flatMap_append_perm ..).symm
  have hprinted : s.printed = s.ownPrinted ++ s.children.flatMap printed := collect_eq
  rw [collect_eq, exprs_eq, hprinted, droppedValues_eq, List.append_assoc, List.append_assoc]
  refine ((hchildren.append_left _).trans ?_).append_left _
  exact List.perm_append_comm_assoc ..

end Program.Stmt

namespace Context

variable {cx : Context} {d : Dialect} {desk desk' : Desk} {s : Stmt}

/-- The effects of the expressions as they are called in C. -/
def effectsInC (cx : Context) (es : List Expr) : Multiset String :=
  (es.flatMap Expr.effects : Multiset Operation).map (Operation.functionInC cx.program)

/-- What is reached of expressions is all of their effects exactly if no static call in them has a
receiver with an effect. -/
theorem reached_eq_effectsInC_iff (es : List Expr) (more : Multiset String) :
    (es.map cx.reached).sum + more = cx.effectsInC es + more ↔
      ∀ e ∈ es, e.everywhere Expr.losesNothing = true := by
  obtain ⟨lost, heffects, hlost⟩ := Expr.exists_lost_sum es fun e _ => e.exists_lost
  rw [← hlost, effectsInC, Expr.coe_flatMap_effects, heffects, Multiset.map_add, map_sum_reached,
    add_left_inj, eq_comm, add_eq_left, Multiset.map_eq_zero]

/-- The text that is printed for the statement holds the tokens, if it is legible. -/
theorem exists_scan_reached (ht : cx.target = .cFamily d) (hnamed : cx.program.Named cx.target)
    (hs : s.everywhere cx.isReadable = true)
    (hrun : (Run.perform (cx.statement s)).run.run desk = (.ok (), desk')) :
    ∃ text, desk'.writer.out = desk.writer.out ++ text ∧
      scan text = some (Step.tokens (cx.statement s).steps) := by
  obtain ⟨hplay, hok⟩ := Run.perform_eq_ok.mp hrun
  have hsteps : cx.statement s = ⟨(cx.statement s).steps, .ok ()⟩ := by rw [← hok]
  have hsentence : Step.Sentence True _ (cx.reachedIn s) :=
    sentence_statement ht s (fun _ => ⟨hnamed, hs⟩) _ hsteps
  obtain ⟨added, hout, hscan⟩ := exists_out_play (hsentence.inline trivial) hplay
  refine ⟨String.ofList added, String.toList_inj.mp (by simp [hout]), ?_⟩
  have hadded :
      scanFrom .between added = scanFrom .between (Step.texts (cx.statement s).steps) := by
    simpa using hscan .between (fun _ => rfl) []
  simpa [scan, hadded] using (hsentence.settles trivial).scans.scanFrom_eq

/-- In C, a printed expression or statement evaluates every effect of the expressions in it once,
apart from the constructions of locals nothing else, exactly if no static call has a receiver with
an effect. Of the expressions in a statement, only the values of locals that leave no place for one
are not printed, with a warning for each. The effects are those of the text where that is read as
its code. -/
theorem evaluates_effects_iff (ht : cx.target = .cFamily d) :
    (∀ e code, cx.code e = .ok code →
      (evaluated code.tokens = cx.effectsInC [e] ↔ e.everywhere Expr.losesNothing = true) ∧
        (cx.program.Named cx.target → e.everywhere Expr.isNamed = true →
          e.everywhere cx.isLegible = true → scan code.text = some code.tokens)) ∧
    (∀ s desk desk', (Run.perform (cx.statement s)).run.run desk = (.ok (), desk') →
      (evaluated (Step.tokens (cx.statement s).steps) =
          cx.effectsInC s.printed + cx.constructions s ↔
        ∀ e ∈ s.printed, e.everywhere Expr.losesNothing = true) ∧
        (s.collect true Stmt.exprs).Perm (s.printed ++ s.droppedValues) ∧
        desk'.warnings = desk.warnings ++ dropped cx.target s.locals ∧
        (cx.program.Named cx.target → s.everywhere cx.isReadable = true →
          ∃ text, desk'.writer.out = desk.writer.out ++ text ∧
            scan text = some (Step.tokens (cx.statement s).steps))) := by
  refine ⟨fun e code hc => ⟨?_, fun hnamed hname hlegible => ?_⟩,
    fun s desk desk' hrun => ⟨?_, s.collect_exprs_perm, ?_, fun hnamed hs => ?_⟩⟩
  · rw [(evaluates_operand ht e code hc).evaluated_eq]
    simpa using reached_eq_effectsInC_iff [e] 0
  · exact scan_text_of_tidy (stretch_code hnamed hname (fun _ => hlegible) hc).toTidy
  · obtain ⟨-, hok⟩ := Run.perform_eq_ok.mp hrun
    have hsteps : cx.statement s = ⟨(cx.statement s).steps, .ok ()⟩ := by rw [← hok]
    have hsentence : Step.Sentence False _ (cx.reachedIn s) :=
      sentence_statement ht s False.elim _ hsteps
    rw [hsentence.concludes.evaluates.evaluated_eq, reachedIn]
    exact reached_eq_effectsInC_iff s.printed (cx.constructions s)
  · obtain ⟨hplay, hok⟩ := Run.perform_eq_ok.mp hrun
    have hsteps : cx.statement s = ⟨(cx.statement s).steps, .ok ()⟩ := by rw [← hok]
    rw [Desk.warnings_play hplay, warns_statement s _ () hsteps]
  · exact exists_scan_reached ht hnamed hs hrun

end Context

/-- A class with a field and three static methods. -/
def Program.counting : Program :=
  ⟨[], [⟨"Game", .exported, none, none,
      [.field ⟨"size", .exported, none, .int .int, none⟩,
        .method ⟨"Next", .exported, none, true, [], .int .int,
          [.returnValue (some (.literal (.int 1) (.int .int)))]⟩,
        .method ⟨"Make", .exported, none, true, [], .classRef ⟨0⟩,
          [.returnValue (some .nullLiteral)]⟩,
        .method ⟨"Reset", .exported, none, true, [], .void, []⟩], []⟩],
    [.classDef ⟨0⟩], [], .empty⟩

set_option maxRecDepth 20000 in
/-- A loop with effects in its head and in the arguments of a call, behind a local whose value is
dropped. -/
theorem Context.evaluates_effects_copying :
    let cx : Context := ⟨.counting, .cFamily .standard, none⟩
    let items : Expr := .var "items" (.array (.int .int) true (some 2))
    let i : Expr := .var "i" (.int .int)
    let zero : Expr := .literal (.int 0) (.int .int)
    let counted : Expr := .unary .postInc i (.int .int)
    let next : Expr := .call none (.user ⟨0⟩ "Next" true) [] (.int .int)
    let copied : Expr :=
      .call (some items) (.builtin .arrayCopyTo) [counted, items, zero, next] .void
    let head : Stmt := .forLoop (some (.declare ⟨"i", .int .int, some zero⟩))
      (some (.binary i .less next .bool)) (some (.eval counted)) (.eval copied)
    let s : Stmt := .block [.declare ⟨"items", .array (.int .int) true (some 2), some next⟩, head]
    ∃ desk', (Run.perform (cx.statement s)).run.run ⟨.new, []⟩ = (.ok (), desk') ∧
      desk'.writer.out = "\x7b\n\tint items[2] = \x7b 0 \x7d;\n" ++
        "\tfor (int i = 0; i < Game_Next(); i++)\n" ++
        "\t\tmemmove(items + 0, items + i++, Game_Next() * sizeof(items[0]));\n\x7d\n" ∧
      desk'.warnings = [.initializerDropped cx.target "items"] ∧
      (scan desk'.writer.out).map evaluated =
        some {"Game_Next", "++", "memmove", "++", "Game_Next"} := by
  intro cx items i zero counted next copied head s
  let text : String := "\x7b\n\tint items[2] = \x7b 0 \x7d;\n" ++
    "\tfor (int i = 0; i < Game_Next(); i++)\n" ++
    "\t\tmemmove(items + 0, items + i++, Game_Next() * sizeof(items[0]));\n\x7d\n"
  have hprinted : ((Run.perform (cx.statement s)).run.run ⟨.new, []⟩).1.toOption.isSome = true ∧
      ((Run.perform (cx.statement s)).run.run ⟨.new, []⟩).2.writer.out = text ∧
      ((Run.perform (cx.statement s)).run.run ⟨.new, []⟩).2.warnings =
        [.initializerDropped cx.target "items"] := by decide
  generalize hrun : (Run.perform (cx.statement s)).run.run ⟨.new, []⟩ = r at hprinted
  obtain ⟨result, desk'⟩ := r
  obtain ⟨hok, htext, hwarnings⟩ := hprinted
  obtain ⟨⟨⟩, hok⟩ := Option.isSome_iff_exists.mp hok
  obtain rfl : result = .ok () := Result.eq_ok_of_toOption hok
  have hnamed : cx.program.Named cx.target := ⟨by simp [cx, Program.counting], by decide⟩
  obtain ⟨heffects, -, -, hscan⟩ :=
    (@evaluates_effects_iff cx .standard rfl).2 s ⟨.new, []⟩ desk' hrun
  obtain ⟨added, hout, hscan⟩ := hscan hnamed (by decide)
  have hadded : desk'.writer.out = added := by simpa [Writer.new] using hout
  refine ⟨desk', rfl, htext, hwarnings, ?_⟩
  rw [hadded, hscan, Option.map_some, heffects.mpr (by decide)]
  decide

/-- The receiver of a static call is evaluated in the source and not printed. -/
theorem Context.evaluated_static_receiver :
    let cx : Context := ⟨.counting, .cFamily .standard, none⟩
    let made : Expr := .call none (.user ⟨0⟩ "Make" true) [] (.classRef ⟨0⟩)
    let e : Expr := .call (some made) (.user ⟨0⟩ "Reset" true) [] .void
    ∃ code, cx.code e = .ok code ∧ code.text = "Game_Reset()" ∧
      cx.effectsInC [e] = {"Game_Make", "Game_Reset"} ∧
      (scan code.text).map evaluated = some {"Game_Reset"} := by
  intro cx made e
  exact ⟨_, rfl, by decide, by decide, by decide⟩

end Emitter
