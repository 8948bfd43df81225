import Emitter.Proofs.Statement.Simple

/-!
# How printed statements are nested

A printed statement is read as the statement it was printed from, with the same conditions, leaves
and bodies, exactly if no `else` follows a branch that ends in an `if` without one. Such an `else`
is printed right behind that `if`, which takes it.
-/

namespace Emitter

open Layout Program Reading

namespace Program.Stmt

/-- The statement ends in a branch without `else`, outside all braces. -/
def endsOpen : Stmt → Bool
  | .branch _ _ none => true
  | .branch _ _ (some onFalse) => onFalse.endsOpen
  | .whileLoop _ body | .forLoop _ _ _ body => body.endsOpen
  | _ => false

mutual

/-- No branch that an `else` follows ends in a branch without one. -/
def attached : Stmt → Bool
  | .block stmts => attachedAll stmts
  | .branch _ onTrue none => attached onTrue
  | .branch _ onTrue (some onFalse) => !onTrue.endsOpen && attached onTrue && attached onFalse
  | .whileLoop _ body | .doLoop body _ | .forLoop _ _ _ body => attached body
  | _ => true

def attachedAll : List Stmt → Bool
  | [] => true
  | s :: rest => attached s && attachedAll rest

end

/-- The names in a statement are identifiers. -/
def isNamed (s : Stmt) : Bool :=
  s.exprs.all (·.everywhere Expr.isNamed) &&
    match s with
    | .declare decl => isWord decl.name
    | _ => true

end Program.Stmt

/-- The tokens of what an emission prints where no line has a margin. -/
def Emit.tokens? (e : Emit Unit) : Option (List Token) :=
  match e.outcome with
  | .ok () => scanFrom .between (Step.texts e.steps)
  | .error _ => none

namespace Context

variable {cx : Context}

/-- The statement is no target code, and declares nothing that statements behind it construct. -/
def isUnconstructed (cx : Context) : Stmt → Bool
  | .native _ => false
  | .declare decl =>
    match cx.target, cx.program.holdsConstructed decl.ty with
    | .actionScript, _ | .cFamily _, .ok false => true
    | _, _ => false
  | _ => true

/-- The tokens of a printed expression. -/
def tokens? (cx : Context) (e : Expr) : Option (List Token) :=
  match cx.code e with
  | .ok code => scan code.text
  | .error _ => none

mutual

/-- The nesting of a statement. Whatever in it is no statement has the tokens that its own text is
read as. -/
def shape? (cx : Context) : Stmt → Option Shape
  | .block stmts => do return .block (← shapes? cx stmts)
  | .eval e => do return .simple (← (cx.simple (.eval e)).tokens?)
  | .declare decl => do return .simple (← (cx.simple (.declare decl)).tokens?)
  | .assign target op value => do return .simple (← (cx.simple (.assign target op value)).tokens?)
  | .branch cond onTrue none => do return .branch (← cx.tokens? cond) (← shape? cx onTrue) none
  | .branch cond onTrue (some onFalse) => do
    return .branch (← cx.tokens? cond) (← shape? cx onTrue) (some (← shape? cx onFalse))
  | .whileLoop cond body => do return .whileLoop (← cx.tokens? cond) (← shape? cx body)
  | .doLoop body cond => do return .doLoop (← shape? cx body) (← cx.tokens? cond)
  | .forLoop start cond advance body => do
    return .forLoop (← (cx.startClause start).tokens?) (← (cx.condClause cond).tokens?)
      (← (cx.advanceClause advance).tokens?) (← shape? cx body)
  | .breakLoop => some (.simple [.word "break"])
  | .continueLoop => some (.simple [.word "continue"])
  | .returnValue none => some (.simple [.word "return"])
  | .returnValue (some e) => do return .simple (.word "return" :: (← cx.tokens? e))
  | .throwError message => do return .simple (.word "throw" :: (← cx.tokens? message))
  | .native _ => none

def shapes? (cx : Context) : List Stmt → Option (List Shape)
  | [] => some []
  | s :: rest => do return (← shape? cx s) :: (← shapes? cx rest)

end

theorem shapes?_cons {s : Stmt} {rest : List Stmt} {shapes : List Shape}
    (h : cx.shapes? (s :: rest) = some shapes) : ∃ shape tail,
      cx.shape? s = some shape ∧ cx.shapes? rest = some tail ∧ shapes = shape :: tail := by
  simp only [shapes?, Option.bind_eq_bind, Option.bind_eq_some_iff] at h
  obtain ⟨shape, hshape, tail, htail, h⟩ := h
  exact ⟨shape, tail, hshape, htail, (Option.some.inj h).symm⟩

theorem attachedAll_eq {stmts : List Stmt} {shapes : List Shape}
    (h : cx.shapes? stmts = some shapes)
    (hstmts : ∀ s ∈ stmts, ∀ shape, cx.shape? s = some shape → shape.attached = s.attached) :
    Shape.attachedAll shapes = Stmt.attachedAll stmts := by
  induction stmts generalizing shapes with
  | nil =>
      obtain rfl : [] = shapes := by simpa [shapes?] using h
      rfl
  | cons s rest ih =>
      obtain ⟨hs, hrest⟩ := List.forall_mem_cons.mp hstmts
      obtain ⟨shape, tail, hshape, htail, rfl⟩ := shapes?_cons h
      simp [Shape.attachedAll, Stmt.attachedAll, hs shape hshape, ih htail hrest]

theorem endsOpen_and_attached_eq (s : Stmt) : ∀ shape, cx.shape? s = some shape →
    shape.endsOpen = s.endsOpen ∧ shape.attached = s.attached := by
  induction s using Stmt.inductOn with
  | h s ih =>
  intro shape h
  cases s with
  | block stmts =>
      simp only [shape?, Option.bind_eq_bind, Option.bind_eq_some_iff] at h
      obtain ⟨shapes, hshapes, h⟩ := h
      obtain rfl := Option.some.inj h
      refine ⟨by simp [Shape.endsOpen, Stmt.endsOpen], ?_⟩
      simpa [Shape.attached, Stmt.attached] using
        attachedAll_eq hshapes fun s hs shape hshape => (ih s hs shape hshape).2
  | branch cond onTrue onFalse =>
      cases onFalse with
      | none =>
          simp only [shape?, Option.bind_eq_bind, Option.bind_eq_some_iff] at h
          obtain ⟨c, -, t, ht, h⟩ := h
          obtain rfl := Option.some.inj h
          exact ⟨rfl, (ih onTrue (by simp [Stmt.children]) t ht).2⟩
      | some onFalse =>
          simp only [shape?, Option.bind_eq_bind, Option.bind_eq_some_iff] at h
          obtain ⟨c, -, t, ht, f, hf, h⟩ := h
          obtain rfl := Option.some.inj h
          obtain ⟨hopen, htrue⟩ := ih onTrue (by simp [Stmt.children]) t ht
          obtain ⟨hopen', hfalse⟩ := ih onFalse (by simp [Stmt.children]) f hf
          exact ⟨hopen', by simp [Shape.attached, Stmt.attached, hopen, htrue, hfalse]⟩
  | whileLoop cond body =>
      simp only [shape?, Option.bind_eq_bind, Option.bind_eq_some_iff] at h
      obtain ⟨c, -, b, hb, h⟩ := h
      obtain rfl := Option.some.inj h
      exact ih body (by simp [Stmt.children]) b hb
  | doLoop body cond =>
      simp only [shape?, Option.bind_eq_bind, Option.bind_eq_some_iff] at h
      obtain ⟨b, hb, c, -, h⟩ := h
      obtain rfl := Option.some.inj h
      exact ⟨rfl, (ih body (by simp [Stmt.children]) b hb).2⟩
  | forLoop start cond advance body =>
      simp only [shape?, Option.bind_eq_bind, Option.bind_eq_some_iff] at h
      obtain ⟨s, -, c, -, a, -, b, hb, h⟩ := h
      obtain rfl := Option.some.inj h
      exact ih body (by simp [Stmt.children]) b hb
  | native text => simp [shape?] at h
  | returnValue value =>
      cases value with
      | none =>
          obtain rfl := Option.some.inj h
          exact ⟨rfl, rfl⟩
      | some e =>
          simp only [shape?, Option.bind_eq_bind, Option.bind_eq_some_iff] at h
          obtain ⟨ts, -, h⟩ := h
          obtain rfl := Option.some.inj h
          exact ⟨rfl, rfl⟩
  | breakLoop | continueLoop =>
      obtain rfl := Option.some.inj h
      exact ⟨rfl, rfl⟩
  | _ =>
      simp only [shape?, Option.bind_eq_bind, Option.bind_eq_some_iff] at h
      obtain ⟨ts, -, h⟩ := h
      obtain rfl := Option.some.inj h
      exact ⟨rfl, rfl⟩

end Context

/-- The steps print a statement of the given nesting, whatever follows it. -/
structure Step.PrintShape (steps : List Step) (shape : Shape) : Prop where
  settles : Settles (Step.texts steps) shape.tokens
  sane : shape.Sane
  inline : ∀ step ∈ steps, step.isInline = true

namespace Reading

/-- A word in front of something separate is a token. -/
theorem scans_word {w : String} (h : isWord w = true) : Scans w.toList [.word w] := by
  intro rest hrest
  have hword : Lexeme.Spelled (.word w) := h
  have hsettle : (Lexeme.word w).pending.settle = some [.word w] := Lexeme.settle_pending _
  refine (Lexeme.scanFrom_text hword rest).trans ?_
  exact scanFrom_settle hsettle fun c hc => Lexeme.extend_separateChar hword (hrest c hc)

/-- A keyword and a space. -/
theorem settles_keyword {w : String} (h : isWord w = true) {c : Char} (hc : c ∈ [' ', '\t', '\n']) :
    Settles (w.toList ++ [c]) [.word w] := by
  have hseparate : ∀ c ∈ [' ', '\t', '\n'], c ∈ separateChars := by decide
  simpa using (scans_word h).append (Settles.space hc) ⟨c, rfl, hseparate c hc⟩

/-- A separate symbol at the end of a line. -/
theorem settles_lineEnd {s : String} (h : (Lexeme.symbol s).isSeparate = true) :
    Settles (s.toList ++ ['\n']) [.symbol s] := by
  simpa using (Code.settles_symbol h).append (Settles.space (c := '\n') (by simp))

/-- Between parentheses. -/
theorem settles_parenthesized {cs : List Char} {ts : List Token} (h : Scans cs ts) :
    Settles ('(' :: (cs ++ [')'])) (.symbol "(" :: (ts ++ [Token.symbol ")"])) := by
  have hopen : Settles ['('] [.symbol "("] := Code.settles_symbol (s := "(") rfl
  have hclose : Settles [')'] [.symbol ")"] := Code.settles_symbol (s := ")") rfl
  exact hopen.append (h.append hclose ⟨')', rfl, by decide⟩)

end Reading

/-! A statement that is printed is taken apart into the emissions of its parts, each of which goes
through by itself. -/

namespace Emit

variable {steps : List Step}

theorem line_eq_ok {code : Code} (h : line code = ⟨steps, .ok ()⟩) :
    steps = [.put code, .newline] := ofSteps_eq_ok.mp h

end Emit

namespace Context

variable {cx : Context} {s : Stmt} {steps : List Step}

/-- A branch or body is printed behind a space or on lines of its own. -/
theorem nested_eq_ok {printed : Emit Unit} (h : nested s printed = ⟨steps, .ok ()⟩) :
    ∃ inner, printed = ⟨inner, .ok ()⟩ ∧
      (∃ c ∈ [' ', '\t', '\n'], Step.texts steps = c :: Step.texts inner) ∧
        ((∀ step ∈ inner, step.isInline = true) → ∀ step ∈ steps, step.isInline = true) := by
  unfold nested at h
  split at h
  · obtain ⟨inner, hinner, rfl⟩ := Emit.ofSteps_bind_eq_ok.mp h
    refine ⟨inner, hinner, ⟨' ', by simp, by simp [Step.texts, Step.text, Code.text]; rfl⟩, ?_⟩
    simp +contextual [Step.isInline]
  · obtain ⟨rest, hrest, rfl⟩ := Emit.ofSteps_bind_eq_ok.mp h
    obtain ⟨inner, hinner, rfl⟩ := Emit.indented_eq_ok.mp hrest
    refine ⟨inner, hinner, ⟨'\n', by simp, by simp [Step.texts, Step.text]⟩, ?_⟩
    simp +contextual [Step.isInline, or_imp]

theorem alternative_eq_ok {printed : Emit Unit} (h : alternative s printed = ⟨steps, .ok ()⟩) :
    ∃ inner, printed = ⟨inner, .ok ()⟩ ∧
      (∃ c ∈ [' ', '\t', '\n'], Step.texts steps = "else".toList ++ [c] ++ Step.texts inner) ∧
        ((∀ step ∈ inner, step.isInline = true) → ∀ step ∈ steps, step.isInline = true) := by
  obtain ⟨rest, hrest, rfl⟩ := Emit.ofSteps_bind_eq_ok.mp h
  split at hrest
  · obtain ⟨inner, hinner, rfl⟩ := Emit.ofSteps_bind_eq_ok.mp hrest
    refine ⟨inner, hinner, ⟨' ', by simp, by simp [Step.texts, Step.text, Code.text]; rfl⟩, ?_⟩
    simp +contextual [Step.isInline]
  · obtain ⟨inner, hinner, ⟨c, hc, htexts⟩, hinline⟩ := nested_eq_ok hrest
    refine ⟨inner, hinner, ⟨c, hc, ?_⟩, ?_⟩
    · have htext : Step.texts [.put [.word "else"]] = "else".toList := by decide
      rw [Step.texts, List.flatMap_append]
      exact (congrArg₂ (· ++ ·) htext htexts).trans (by simp)
    · intro h
      simpa [Step.isInline] using hinline h

theorem head_eq_ok {keyword : String} {cond : Expr} (h : cx.head keyword cond = ⟨steps, .ok ()⟩) :
    ∃ code, cx.code cond = .ok code ∧
      steps = [.put ([Lexeme.word keyword, Lexeme.gap] ++ Code.parenthesized code)] := by
  obtain ⟨code, hcode, hput⟩ := Emit.liftM_bind_eq_ok.mp h
  exact ⟨code, hcode, Emit.ofSteps_eq_ok.mp hput⟩

theorem exists_tokens? (hnamed : cx.program.Named cx.target) {e : Expr} {code : Code}
    (hname : e.everywhere Expr.isNamed = true) (hc : cx.code e = .ok code) :
    ∃ ts, cx.tokens? e = some ts ∧ Scans code.text.toList ts ∧ Balanced ts := by
  have hstretch : Code.Stretch false code := stretch_code hnamed hname (by simp) hc
  obtain ⟨ts, hts, hbalanced⟩ := hstretch.toTidy.exists_scans
  exact ⟨ts, by simp [tokens?, hc, scan, hts.scanFrom_eq], hts, hbalanced⟩

theorem exists_printCode_simple (hnamed : cx.program.Named cx.target) (hs : s.isNamed = true)
    (h : cx.simple s = ⟨steps, .ok ()⟩) : ∃ code, Step.PrintCode steps code := by
  simp only [Stmt.isNamed, Bool.and_eq_true, List.all_eq_true] at hs
  obtain ⟨hexprs, hname⟩ := hs
  cases s with
  | eval e =>
      obtain ⟨code, hcode, hput⟩ := Emit.liftM_bind_eq_ok.mp h
      obtain rfl := Emit.ofSteps_eq_ok.mp hput
      have hstretch : Code.Stretch false code :=
        stretch_code hnamed (hexprs e (by simp [Stmt.exprs])) (by simp) hcode
      exact ⟨code, .of_stretch hstretch (by simp [Step.texts, Step.text, Step.isInline])⟩
  | declare decl =>
      have hvalue : ∀ e ∈ decl.value, e.everywhere Expr.isNamed = true := fun e he =>
        hexprs e (by simpa [Stmt.exprs] using he)
      change cx.declareLocal decl = _ at h
      unfold declareLocal at h
      split at h
      · exact ActionScript.exists_printCode_declareLocal hnamed hname hvalue h
      · exact CFamily.exists_printCode_declareLocal hnamed hname hvalue h
  | assign target op value =>
      have htarget := hexprs target (by simp [Stmt.exprs])
      have hvalue := hexprs value (by simp [Stmt.exprs])
      obtain ⟨code, hcode, hput⟩ := Emit.liftM_bind_eq_ok.mp h
      obtain rfl := Emit.ofSteps_eq_ok.mp hput
      have hstretch : Code.Stretch false code := by
        unfold assign at hcode
        split at hcode
        case h_1 ht => exact ActionScript.stretch_assign hnamed ht htarget hvalue (by simp) hcode
        case h_2 =>
          obtain ⟨place, hplace, hcode⟩ := Result.bind_eq_ok.mp hcode
          obtain ⟨given, hgiven, hcode⟩ := Result.bind_eq_ok.mp hcode
          obtain rfl := Except.ok.inj hcode
          exact (stretch_code hnamed htarget (by simp) hplace).infixed
            (stretch_code hnamed hvalue (by simp) hgiven)
            (plain_assignOp op).1 (plain_assignOp op).2
      exact ⟨code, .of_stretch hstretch (by simp [Step.texts, Step.text, Step.isInline])⟩
  | _ =>
      simp [simple, unsupported, liftM, monadLift, MonadLift.monadLift, Emit.ofResult] at h

/-- What is printed is read as tokens that close their brackets and do not begin as a statement of
another kind. -/
theorem exists_tokens?_simple (hnamed : cx.program.Named cx.target) (hs : s.isNamed = true)
    (h : cx.simple s = ⟨steps, .ok ()⟩) : ∃ ts, (cx.simple s).tokens? = some ts ∧
      Scans (Step.texts steps) ts ∧ Balanced ts ∧ (∀ t ∈ ts.head?, t ∉ Shape.openers) ∧
        ∀ step ∈ steps, step.isInline = true := by
  obtain ⟨code, hcode⟩ := exists_printCode_simple hnamed hs h
  obtain ⟨ts, hts, hbalanced⟩ := hcode.tidy.exists_scans
  refine ⟨ts, ?_, by rwa [hcode.texts], hbalanced, ?_, hcode.inline⟩
  · simp [Emit.tokens?, h, hcode.texts, hts.scanFrom_eq]
  · obtain ⟨l, hl, hbegins⟩ := hcode.begins
    exact Code.not_mem_openers_of_begins hcode.tidy
      (fun l' hl' => by rwa [Option.mem_unique hl' hl]) hts

theorem constructCalls_eq_pure {depth : Nat} {place : Code} {ty : Ty}
    (h : cx.program.holdsConstructed ty = .ok false) :
    CFamily.constructCalls cx depth place ty = pure () := by
  unfold CFamily.constructCalls
  split
  · have h : cx.program.needsConstruction _ = .ok false := h
    simp [h, lookedUp]
    rfl
  · simp [h, lookedUp]
    rfl
  · rfl

theorem simpleLine_eq_ok (hs : cx.isUnconstructed s = true)
    (h : cx.simpleLine s = ⟨steps, .ok ()⟩) :
    ∃ first,
      cx.simple s = ⟨first, .ok ()⟩ ∧ steps = first ++ [Step.put [.symbol ";"], Step.newline] := by
  obtain ⟨⟨⟩, first, rest, hfirst, hrest, rfl⟩ := Emit.bind_eq_ok.mp h
  obtain ⟨last, hlast, rfl⟩ := Emit.ofSteps_bind_eq_ok.mp hrest
  have hnothing : cx.afterSimple s = pure () := by
    unfold afterSimple
    split
    case h_1 d decl ht =>
      refine constructCalls_eq_pure ?_
      simp only [isUnconstructed, ht] at hs
      split at hs <;> simp_all
    case h_2 => rfl
  rw [hnothing] at hlast
  obtain ⟨-, rfl⟩ := Emit.pure_eq_ok.mp hlast
  exact ⟨first, hfirst, by simp⟩

theorem exists_printShape_simpleLine (hnamed : cx.program.Named cx.target)
    (hs : s.isNamed = true) (hplain : cx.isUnconstructed s = true)
    (h : cx.simpleLine s = ⟨steps, .ok ()⟩) : ∃ ts, (cx.simple s).tokens? = some ts ∧
      Step.PrintShape steps (.simple ts) := by
  obtain ⟨first, hfirst, rfl⟩ := simpleLine_eq_ok hplain h
  obtain ⟨ts, hts, hscans, hbalanced, hhead, hinline⟩ := exists_tokens?_simple hnamed hs hfirst
  refine ⟨ts, hts, ?_, ?_, ?_⟩
  · have := hscans.append (settles_lineEnd (s := ";") rfl) ⟨';', rfl, by decide⟩
    simpa [Shape.tokens, Step.texts, Step.text, Code.text, Lexeme.text] using this
  · simpa only [Shape.Sane] using And.intro hbalanced hhead
  · intro step hstep
    simp only [List.mem_append, List.mem_cons, List.not_mem_nil, or_false] at hstep
    rcases hstep with hstep | rfl | rfl
    · exact hinline step hstep
    · rfl
    · rfl

/-- A keyword and a condition between parentheses. -/
theorem settles_head {keyword : String} (hword : isWord keyword = true) {code : Code}
    {ts : List Token} (h : Scans code.text.toList ts) :
    Settles (Step.texts [.put ([Lexeme.word keyword, Lexeme.gap] ++ Code.parenthesized code)])
      (.word keyword :: .symbol "(" :: (ts ++ [Token.symbol ")"])) := by
  have hhead := (settles_keyword hword (c := ' ') (by simp)).append (settles_parenthesized h)
  have htext : Step.texts [.put ([Lexeme.word keyword, Lexeme.gap] ++ Code.parenthesized code)] =
      keyword.toList ++ [' '] ++ '(' :: (code.text.toList ++ [')']) := by
    simp [Step.texts, Step.text, Code.toList_text, Lexeme.text, Code.parenthesized]
  rw [htext]
  simpa using hhead

theorem exists_scans_startClause (hnamed : cx.program.Named cx.target) {start : Option Stmt}
    (hs : ∀ s ∈ start, s.isNamed = true) (h : cx.startClause start = ⟨steps, .ok ()⟩) :
    ∃ ts, (cx.startClause start).tokens? = some ts ∧ Scans (Step.texts steps) ts ∧ Balanced ts ∧
      ∀ step ∈ steps, step.isInline = true := by
  cases start with
  | none =>
      obtain ⟨-, rfl⟩ := Emit.pure_eq_ok.mp h
      exact ⟨[], rfl, .nil, .nil, by simp⟩
  | some s =>
      have hsimple : cx.simple s = ⟨steps, .ok ()⟩ := by
        have h : cx.loopStart s = ⟨steps, .ok ()⟩ := h
        unfold loopStart at h
        split at h
        · exact h
        · obtain ⟨⟨⟩, -, h⟩ := Emit.liftM_bind_eq_ok.mp h
          exact h
      obtain ⟨ts, hts, hscans, hbalanced, -, hinline⟩ :=
        exists_tokens?_simple hnamed (hs s rfl) hsimple
      refine ⟨ts, ?_, hscans, hbalanced, hinline⟩
      rw [← hts, h, hsimple]

theorem exists_scans_condClause (hnamed : cx.program.Named cx.target) {cond : Option Expr}
    (he : ∀ e ∈ cond, e.everywhere Expr.isNamed = true)
    (h : cx.condClause cond = ⟨steps, .ok ()⟩) :
    ∃ ts, (cx.condClause cond).tokens? = some ts ∧ Scans (Step.texts steps) ts ∧ Balanced ts ∧
      ∀ step ∈ steps, step.isInline = true := by
  cases cond with
  | none =>
      obtain ⟨-, rfl⟩ := Emit.pure_eq_ok.mp h
      exact ⟨[], rfl, .nil, .nil, by simp⟩
  | some e =>
      obtain ⟨code, hcode, hput⟩ := Emit.liftM_bind_eq_ok.mp h
      obtain rfl := Emit.ofSteps_eq_ok.mp hput
      obtain ⟨ts, -, hscans, hbalanced⟩ := exists_tokens? hnamed (he e rfl) hcode
      have hspaced : Scans (Step.texts [.put (.gap :: code)]) ts := by
        have := (Settles.space (c := ' ') (by simp)).append_scans hscans
        simpa [Step.texts, Step.text, Code.toList_text, Lexeme.text] using this
      exact ⟨ts, by simp [Emit.tokens?, h, hspaced.scanFrom_eq], hspaced, hbalanced,
        by simp [Step.isInline]⟩

theorem exists_scans_advanceClause (hnamed : cx.program.Named cx.target) {advance : Option Stmt}
    (hs : ∀ s ∈ advance, s.isNamed = true) (h : cx.advanceClause advance = ⟨steps, .ok ()⟩) :
    ∃ ts, (cx.advanceClause advance).tokens? = some ts ∧ Scans (Step.texts steps) ts ∧
      Balanced ts ∧ ∀ step ∈ steps, step.isInline = true := by
  cases advance with
  | none =>
      obtain ⟨-, rfl⟩ := Emit.pure_eq_ok.mp h
      exact ⟨[], rfl, .nil, .nil, by simp⟩
  | some s =>
      obtain ⟨rest, hrest, rfl⟩ := Emit.ofSteps_bind_eq_ok.mp h
      obtain ⟨ts, -, hscans, hbalanced, -, hinline⟩ := exists_tokens?_simple hnamed (hs s rfl) hrest
      have hspaced : Scans (Step.texts (.put [.gap] :: rest)) ts := by
        have := (Settles.space (c := ' ') (by simp)).append_scans hscans
        simpa [Step.texts, Step.text, Code.toList_text, Lexeme.text] using this
      exact ⟨ts, by simp [Emit.tokens?, h, hspaced.scanFrom_eq], hspaced, hbalanced,
        by simpa [Step.isInline] using hinline⟩

theorem loopHead_eq_ok {start advance : Option Stmt} {cond : Option Expr}
    (h : cx.loopHead start cond advance = ⟨steps, .ok ()⟩) : ∃ first second third,
      cx.startClause start = ⟨first, .ok ()⟩ ∧ cx.condClause cond = ⟨second, .ok ()⟩ ∧
        cx.advanceClause advance = ⟨third, .ok ()⟩ ∧
          steps = .put [.word "for", .gap, .symbol "("] :: (first ++ Step.put [.symbol ";"] ::
            (second ++ Step.put [.symbol ";"] :: (third ++ [Step.put [.symbol ")"]]))) := by
  rw [loopHead_eq] at h
  obtain ⟨_, hclauses, rfl⟩ := Emit.ofSteps_bind_eq_ok.mp h
  obtain ⟨⟨⟩, first, _, hfirst, hrest, rfl⟩ := Emit.bind_eq_ok.mp hclauses
  obtain ⟨_, hrest', rfl⟩ := Emit.ofSteps_bind_eq_ok.mp hrest
  obtain ⟨⟨⟩, second, _, hsecond, hlast, rfl⟩ := Emit.bind_eq_ok.mp hrest'
  obtain ⟨_, hlast', rfl⟩ := Emit.ofSteps_bind_eq_ok.mp hlast
  obtain ⟨⟨⟩, third, _, hthird, hclose, rfl⟩ := Emit.bind_eq_ok.mp hlast'
  obtain rfl := Emit.ofSteps_eq_ok.mp hclose
  exact ⟨first, second, third, hfirst, hsecond, hthird, by simp⟩

theorem exists_printShape_statements {stmts : List Stmt}
    (ih : ∀ s ∈ stmts, ∀ steps, cx.statement s = ⟨steps, .ok ()⟩ →
      ∃ shape, cx.shape? s = some shape ∧ Step.PrintShape steps shape)
    (h : cx.statements stmts = ⟨steps, .ok ()⟩) : ∃ shapes, cx.shapes? stmts = some shapes ∧
      Settles (Step.texts steps) (Shape.tokensOf shapes) ∧ Shape.SaneAll shapes ∧
        ∀ step ∈ steps, step.isInline = true := by
  induction stmts generalizing steps with
  | nil =>
      obtain ⟨-, rfl⟩ := Emit.pure_eq_ok.mp h
      refine ⟨[], by simp [shapes?], fun rest => ?_, by simp [Shape.SaneAll], by simp⟩
      simp [Step.texts, Shape.tokensOf]
  | cons s rest ihrest =>
      obtain ⟨ihs, ih⟩ := List.forall_mem_cons.mp ih
      obtain ⟨⟨⟩, first, last, hfirst, hlast, rfl⟩ := Emit.bind_eq_ok.mp h
      obtain ⟨shape, hshape, hprint⟩ := ihs first hfirst
      obtain ⟨shapes, hshapes, hsettles, hsane, hinline⟩ := ihrest ih hlast
      refine ⟨shape :: shapes, by simp [shapes?, hshape, hshapes], ?_, ?_, ?_⟩
      · simpa [Step.texts, Shape.tokensOf] using hprint.settles.append hsettles
      · simpa only [Shape.SaneAll] using And.intro hprint.sane hsane
      · intro step hstep
        rcases List.mem_append.mp hstep with hstep | hstep
        · exact hprint.inline step hstep
        · exact hinline step hstep

theorem exists_settles_head (hnamed : cx.program.Named cx.target) {keyword : String} {cond : Expr}
    (hword : isWord keyword = true) (hcond : cond.everywhere Expr.isNamed = true)
    (h : cx.head keyword cond = ⟨steps, .ok ()⟩) : ∃ ts, cx.tokens? cond = some ts ∧
      Settles (Step.texts steps) (.word keyword :: .symbol "(" :: (ts ++ [Token.symbol ")"])) ∧
        Balanced ts ∧ ∀ step ∈ steps, step.isInline = true := by
  obtain ⟨code, hcode, rfl⟩ := head_eq_ok h
  obtain ⟨ts, hts, hscans, hbalanced⟩ := exists_tokens? hnamed hcond hcode
  exact ⟨ts, hts, settles_head hword hscans, hbalanced, by simp [Step.isInline]⟩

/-- A branch or body in its place is read as where it stands alone. -/
theorem exists_printShape_nested {printed : Emit Unit} {shape? : Option Shape}
    (ih : ∀ steps, printed = ⟨steps, .ok ()⟩ → ∃ shape, shape? = some shape ∧
      Step.PrintShape steps shape) (h : nested s printed = ⟨steps, .ok ()⟩) :
    ∃ shape, shape? = some shape ∧ Step.PrintShape steps shape ∧
      ∃ c ∈ (Step.texts steps).head?, c ∈ separateChars := by
  obtain ⟨inner, hinner, ⟨c, hc, htexts⟩, hinline⟩ := nested_eq_ok h
  obtain ⟨shape, hshape, hprint⟩ := ih inner hinner
  have hseparate : ∀ c ∈ [' ', '\t', '\n'], c ∈ separateChars := by decide
  refine ⟨shape, hshape, ⟨?_, hprint.sane, hinline hprint.inline⟩, c, by simp [htexts],
    hseparate c hc⟩
  rw [htexts]
  exact (Settles.space hc).append hprint.settles

theorem exists_settles_alternative {printed : Emit Unit} {shape? : Option Shape}
    (ih : ∀ steps, printed = ⟨steps, .ok ()⟩ → ∃ shape, shape? = some shape ∧
      Step.PrintShape steps shape) (h : alternative s printed = ⟨steps, .ok ()⟩) :
    ∃ shape, shape? = some shape ∧ Settles (Step.texts steps) (.word "else" :: shape.tokens) ∧
      shape.Sane ∧ ∀ step ∈ steps, step.isInline = true := by
  obtain ⟨inner, hinner, ⟨c, hc, htexts⟩, hinline⟩ := alternative_eq_ok h
  obtain ⟨shape, hshape, hprint⟩ := ih inner hinner
  refine ⟨shape, hshape, ?_, hprint.sane, hinline hprint.inline⟩
  rw [htexts]
  exact (settles_keyword (w := "else") (by decide) hc).append hprint.settles

/-- A statement of one word. -/
theorem printShape_word {w : String} (hword : isWord w = true) (hw : .word w ∉ Shape.openers) :
    Step.PrintShape [.put [.word w, .symbol ";"], .newline] (.simple [.word w]) where
  settles := by
    have := (scans_word hword).append (settles_lineEnd (s := ";") rfl) ⟨';', rfl, by decide⟩
    simpa [Step.texts, Step.text, Shape.tokens, Code.toList_text, Lexeme.text] using this
  sane := by
    have hbalanced : Balanced [.word w] := .singleton fun _ => rfl
    simpa only [Shape.Sane] using And.intro hbalanced (by simpa using hw)
  inline := by simp [Step.isInline]

/-- A statement of a word and an expression. -/
theorem printShape_wordAndExpr {w : String} (hword : isWord w = true)
    (hw : .word w ∉ Shape.openers) {code : Code} {ts : List Token}
    (hscans : Scans code.text.toList ts) (hbalanced : Balanced ts) :
    Step.PrintShape [.put ([Lexeme.word w, Lexeme.gap] ++ code ++ [Lexeme.symbol ";"]), .newline]
      (.simple (.word w :: ts)) where
  settles := by
    have := (settles_keyword hword (c := ' ') (by simp)).append
      (hscans.append (settles_lineEnd (s := ";") rfl) ⟨';', rfl, by decide⟩)
    simpa [Step.texts, Step.text, Shape.tokens, Code.toList_text, Lexeme.text] using this
  sane := by
    have hbalanced : Balanced (.word w :: ts) := Balanced.append (.singleton fun _ => rfl) hbalanced
    simpa only [Shape.Sane] using And.intro hbalanced (by simpa using hw)
  inline := by simp [Step.isInline]

theorem exists_printShape (hnamed : cx.program.Named cx.target) (s : Stmt) :
    s.everywhere (fun s => s.isNamed && cx.isUnconstructed s) = true →
      ∀ steps, cx.statement s = ⟨steps, .ok ()⟩ →
        ∃ shape, cx.shape? s = some shape ∧ Step.PrintShape steps shape := by
  induction s using Stmt.inductOn with
  | h s ih =>
  intro hs steps h
  obtain ⟨hown, hchildren⟩ := Stmt.everywhere_iff.mp hs
  obtain ⟨hname, hplain⟩ := Bool.and_eq_true_iff.mp hown
  have ih := fun child hchild => ih child hchild (hchildren child hchild)
  have hexprs : ∀ e ∈ s.exprs, e.everywhere Expr.isNamed = true := by
    simp only [Stmt.isNamed, Bool.and_eq_true, List.all_eq_true] at hname
    exact hname.1
  cases s with
  | block stmts =>
      rw [statement] at h
      obtain ⟨inner, hinner, rfl⟩ := Emit.braced_eq_ok.mp h
      have ih : ∀ s ∈ stmts, _ := ih
      obtain ⟨shapes, hshapes, hsettles, hsane, hinline⟩ := exists_printShape_statements ih hinner
      refine ⟨.block shapes, by simp [shape?, hshapes], ?_, by simpa only [Shape.Sane] using hsane,
        by simpa [Step.isInline, or_imp, forall_and] using hinline⟩
      have hblock := ((settles_lineEnd (s := "\x7b") rfl).append hsettles).append
        (settles_lineEnd (s := "\x7d") rfl)
      simpa [Step.texts, Step.text, Shape.tokens, Code.toList_text, Lexeme.text] using hblock
  | eval e =>
      rw [statement] at h
      obtain ⟨ts, hts, hprint⟩ := exists_printShape_simpleLine hnamed hname hplain h
      exact ⟨.simple ts, by simp [shape?, hts], hprint⟩
  | declare decl =>
      rw [statement] at h
      obtain ⟨ts, hts, hprint⟩ := exists_printShape_simpleLine hnamed hname hplain h
      exact ⟨.simple ts, by simp [shape?, hts], hprint⟩
  | assign target op value =>
      rw [statement] at h
      obtain ⟨ts, hts, hprint⟩ := exists_printShape_simpleLine hnamed hname hplain h
      exact ⟨.simple ts, by simp [shape?, hts], hprint⟩
  | branch cond onTrue onFalse =>
      have hcond := hexprs cond (by simp [Stmt.exprs])
      have ihTrue := ih onTrue (by simp [Stmt.children])
      cases onFalse with
      | none =>
          rw [statement] at h
          obtain ⟨⟨⟩, first, rest, hfirst, hrest, rfl⟩ := Emit.bind_eq_ok.mp h
          obtain ⟨ts, hts, hhead, hbalanced, hinline⟩ :=
            exists_settles_head hnamed (by decide) hcond hfirst
          obtain ⟨shape, hshape, hprint, -⟩ := exists_printShape_nested ihTrue hrest
          refine ⟨.branch ts shape none, by simp [shape?, hts, hshape], ?_, ?_, ?_⟩
          · simpa [Step.texts, Shape.tokens] using hhead.append hprint.settles
          · simpa only [Shape.Sane] using And.intro hbalanced hprint.sane
          · simpa [or_imp, forall_and] using And.intro hinline hprint.inline
      | some onFalse =>
          rw [statement] at h
          obtain ⟨⟨⟩, first, rest, hfirst, hrest, rfl⟩ := Emit.bind_eq_ok.mp h
          obtain ⟨⟨⟩, second, last, hsecond, hlast, rfl⟩ := Emit.bind_eq_ok.mp hrest
          obtain ⟨ts, hts, hhead, hbalanced, hinline⟩ :=
            exists_settles_head hnamed (by decide) hcond hfirst
          obtain ⟨shape, hshape, hprint, -⟩ := exists_printShape_nested ihTrue hsecond
          obtain ⟨shape', hshape', helse, hsane, hinline'⟩ :=
            exists_settles_alternative (ih onFalse (by simp [Stmt.children])) hlast
          refine ⟨.branch ts shape (some shape'), by simp [shape?, hts, hshape, hshape'], ?_, ?_,
            ?_⟩
          · simpa [Step.texts, Shape.tokens] using hhead.append (hprint.settles.append helse)
          · simpa only [Shape.Sane] using And.intro hbalanced (And.intro hprint.sane hsane)
          · simpa [or_imp, forall_and] using
              And.intro hinline (And.intro hprint.inline hinline')
  | whileLoop cond body =>
      rw [statement] at h
      obtain ⟨⟨⟩, first, rest, hfirst, hrest, rfl⟩ := Emit.bind_eq_ok.mp h
      obtain ⟨ts, hts, hhead, hbalanced, hinline⟩ :=
        exists_settles_head hnamed (by decide) (hexprs cond (by simp [Stmt.exprs])) hfirst
      obtain ⟨shape, hshape, hprint, -⟩ :=
        exists_printShape_nested (ih body (by simp [Stmt.children])) hrest
      refine ⟨.whileLoop ts shape, by simp [shape?, hts, hshape], ?_, ?_, ?_⟩
      · simpa [Step.texts, Shape.tokens] using hhead.append hprint.settles
      · simpa only [Shape.Sane] using And.intro hbalanced hprint.sane
      · simpa [or_imp, forall_and] using And.intro hinline hprint.inline
  | doLoop body cond =>
      rw [statement] at h
      obtain ⟨_, hloop, rfl⟩ := Emit.ofSteps_bind_eq_ok.mp h
      obtain ⟨⟨⟩, first, _, hfirst, hrest, rfl⟩ := Emit.bind_eq_ok.mp hloop
      obtain ⟨⟨⟩, second, last, hsecond, hlast, rfl⟩ := Emit.bind_eq_ok.mp hrest
      obtain rfl := Emit.line_eq_ok hlast
      obtain ⟨shape, hshape, hprint, hspace⟩ :=
        exists_printShape_nested (ih body (by simp [Stmt.children])) hfirst
      obtain ⟨ts, hts, hhead, hbalanced, hinline⟩ :=
        exists_settles_head hnamed (by decide) (hexprs cond (by simp [Stmt.exprs])) hsecond
      refine ⟨.doLoop shape ts, by simp [shape?, hts, hshape], ?_, ?_, ?_⟩
      · have hdo := (scans_word (w := "do") (by decide)).append hprint.settles hspace
        have := hdo.append (hhead.append (settles_lineEnd (s := ";") rfl))
        simpa [Step.texts, Step.text, Shape.tokens, Code.toList_text, Lexeme.text] using this
      · simpa only [Shape.Sane] using And.intro hbalanced hprint.sane
      · simpa [Step.isInline, or_imp, forall_and] using And.intro hprint.inline hinline
  | forLoop start cond advance body =>
      rw [statement] at h
      obtain ⟨⟨⟩, _, rest, hhead, hrest, rfl⟩ := Emit.bind_eq_ok.mp h
      obtain ⟨first, second, third, hstart, hcond, hadvance, rfl⟩ := loopHead_eq_ok hhead
      have hclause : ∀ clause ∈ [start, advance], ∀ s ∈ clause, s.isNamed = true := by
        intro clause hclause s hs
        refine (Bool.and_eq_true_iff.mp (Stmt.everywhere_iff.mp (hchildren s ?_)).1).1
        obtain rfl := Option.mem_def.mp hs
        rcases List.mem_pair.mp hclause with rfl | rfl <;> simp [Stmt.children]
      obtain ⟨ts, hts, hscans, hbalanced, hinline⟩ :=
        exists_scans_startClause hnamed (hclause start (by simp)) hstart
      obtain ⟨us, hus, hscans', hbalanced', hinline'⟩ := exists_scans_condClause hnamed
        (fun e he => hexprs e (by simpa [Stmt.exprs] using he)) hcond
      obtain ⟨vs, hvs, hscans'', hbalanced'', hinline''⟩ :=
        exists_scans_advanceClause hnamed (hclause advance (by simp)) hadvance
      obtain ⟨shape, hshape, hprint, -⟩ :=
        exists_printShape_nested (ih body (by simp [Stmt.children])) hrest
      refine ⟨.forLoop ts us vs shape, by simp [shape?, hts, hus, hvs, hshape], ?_, ?_, ?_⟩
      · have hfor := (settles_keyword (w := "for") (by decide) (c := ' ') (by simp)).append
          (Code.settles_symbol (s := "(") rfl)
        have hsemicolon : Settles ";".toList [.symbol ";"] := Code.settles_symbol rfl
        have hclose : Settles ")".toList [.symbol ")"] := Code.settles_symbol rfl
        have := hfor.append ((hscans.append hsemicolon ⟨';', rfl, by decide⟩).append
          ((hscans'.append hsemicolon ⟨';', rfl, by decide⟩).append
            ((hscans''.append hclose ⟨')', rfl, by decide⟩).append hprint.settles)))
        simpa [Step.texts, Step.text, Shape.tokens, Code.toList_text, Lexeme.text] using this
      · simpa only [Shape.Sane] using
          And.intro hbalanced (And.intro hbalanced' (And.intro hbalanced'' hprint.sane))
      · have hall := And.intro hinline (And.intro hinline' (And.intro hinline'' hprint.inline))
        simpa [Step.isInline, or_imp, forall_and] using hall
  | breakLoop =>
      rw [statement] at h
      obtain rfl := Emit.line_eq_ok h
      exact ⟨_, rfl, printShape_word (by decide) (by decide)⟩
  | continueLoop =>
      rw [statement] at h
      obtain rfl := Emit.line_eq_ok h
      exact ⟨_, rfl, printShape_word (by decide) (by decide)⟩
  | returnValue value =>
      rw [statement] at h
      cases value with
      | none =>
          obtain rfl := Emit.line_eq_ok h
          exact ⟨_, rfl, printShape_word (by decide) (by decide)⟩
      | some e =>
          obtain ⟨code, hcode, hline⟩ := Emit.liftM_bind_eq_ok.mp h
          obtain rfl := Emit.line_eq_ok hline
          obtain ⟨ts, hts, hscans, hbalanced⟩ :=
            exists_tokens? hnamed (hexprs e (by simp [Stmt.exprs])) hcode
          exact ⟨.simple (.word "return" :: ts), by simp [shape?, hts],
            printShape_wordAndExpr (by decide) (by decide) hscans hbalanced⟩
  | «throwError» message =>
      rw [statement] at h
      unfold thrown at h
      split at h
      · obtain ⟨code, hcode, hline⟩ := Emit.liftM_bind_eq_ok.mp h
        obtain rfl := Emit.line_eq_ok hline
        obtain ⟨ts, hts, hscans, hbalanced⟩ :=
          exists_tokens? hnamed (hexprs message (by simp [Stmt.exprs])) hcode
        exact ⟨.simple (.word "throw" :: ts), by simp [shape?, hts],
          printShape_wordAndExpr (by decide) (by decide) hscans hbalanced⟩
      · exact absurd h (by simp [unsupported, liftM, monadLift, MonadLift.monadLift, Emit.ofResult])
  | native text => simp [isUnconstructed] at hplain

end Context

namespace Context

variable {cx : Context} {s : Stmt} {d d' : Desk}

/-- The text of a printed statement holds the tokens of its nesting. -/
theorem exists_scan_statement (hnamed : cx.program.Named cx.target)
    (hs : s.everywhere (fun s => s.isNamed && cx.isUnconstructed s) = true)
    (hrun : (Run.perform (cx.statement s)).run.run d = (.ok (), d')) :
    ∃ shape text, cx.shape? s = some shape ∧ d'.writer.out = d.writer.out ++ text ∧
      scan text = some shape.tokens ∧ shape.Sane := by
  obtain ⟨hplay, hok⟩ := Run.perform_eq_ok.mp hrun
  have hsteps : cx.statement s = ⟨(cx.statement s).steps, .ok ()⟩ := by rw [← hok]
  obtain ⟨shape, hshape, hprint⟩ := exists_printShape hnamed s hs _ hsteps
  obtain ⟨added, hout, hscan⟩ := exists_out_play hprint.inline hplay
  refine ⟨shape, String.ofList added, hshape, String.toList_inj.mp (by simp [hout]), ?_,
    hprint.sane⟩
  have hadded :
      scanFrom .between added = scanFrom .between (Step.texts (cx.statement s).steps) := by
    simpa using hscan .between (fun _ => rfl) []
  simpa [scan, hadded] using hprint.settles.scans.scanFrom_eq

/-- The text of a printed statement is read as the statement, with every `else` at the branch that
carries it, exactly if no branch that an `else` follows ends in a branch without one. -/
theorem readShape_statement_iff (hnamed : cx.program.Named cx.target)
    (hs : s.everywhere (fun s => s.isNamed && cx.isUnconstructed s) = true)
    (hrun : (Run.perform (cx.statement s)).run.run d = (.ok (), d')) :
    ∃ shape text, cx.shape? s = some shape ∧ d'.writer.out = d.writer.out ++ text ∧
      (readShape text = some shape ↔ s.attached = true) := by
  obtain ⟨shape, text, hshape, hout, hscan, hsane⟩ := exists_scan_statement hnamed hs hrun
  refine ⟨shape, text, hshape, hout, ?_⟩
  rw [Shape.readShape_eq_some_iff hscan hsane, (endsOpen_and_attached_eq s shape hshape).2]

/-- A loop around a chain of branches: the last branch has no `else`, and none follows it. -/
theorem readShape_statement_chain :
    let cx : Context := ⟨.empty, .cFamily .standard, none⟩
    let flag (text : String) : Expr := .var text .bool
    let s : Stmt := .whileLoop (flag "a")
      (.branch (flag "b") .breakLoop (some (.branch (flag "c") .continueLoop none)))
    ∃ d' shape, (Run.perform (cx.statement s)).run.run ⟨.new, []⟩ = (.ok (), d') ∧
      cx.shape? s = some shape ∧ readShape d'.writer.out = some shape := by
  intro cx flag s
  have hnamed : cx.program.Named cx.target :=
    ⟨by simp [cx, Program.empty], by simp [cx, Program.empty]⟩
  obtain ⟨shape, text, hshape, hout, hread⟩ :=
    readShape_statement_iff (s := s) (d := ⟨.new, []⟩) hnamed (by decide) rfl
  refine ⟨_, shape, rfl, hshape, ?_⟩
  rw [hout]
  simpa [Writer.new] using hread.mpr (by decide)

/-- A branch without `else` takes the `else` of the branch around it. -/
theorem readShape_statement_dangling :
    let cx : Context := ⟨.empty, .cFamily .standard, none⟩
    let flag (text : String) : Expr := .var text .bool
    let s : Stmt := .branch (flag "a") (.branch (flag "b") .breakLoop none) (some .continueLoop)
    ∃ d' shape, (Run.perform (cx.statement s)).run.run ⟨.new, []⟩ = (.ok (), d') ∧
      d'.writer.out = "if (a)\n\tif (b)\n\t\tbreak;\nelse\n\tcontinue;\n" ∧
      cx.shape? s = some shape ∧ readShape d'.writer.out ≠ some shape := by
  intro cx flag s
  have hnamed : cx.program.Named cx.target :=
    ⟨by simp [cx, Program.empty], by simp [cx, Program.empty]⟩
  obtain ⟨shape, text, hshape, hout, hscan, hsane⟩ :=
    exists_scan_statement (s := s) (d := ⟨.new, []⟩) hnamed (by decide) rfl
  refine ⟨_, shape, rfl, by decide, hshape, ?_⟩
  rw [hout]
  have hopen : shape.attached = false :=
    (endsOpen_and_attached_eq s shape hshape).2.trans (by decide)
  simpa [Writer.new, hopen] using (Shape.readShape_eq_some_iff hscan hsane).not

end Context

end Emitter
