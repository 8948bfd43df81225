import Emitter.Proofs.Reading.Converse
import Emitter.Proofs.Reading.Elements
import Emitter.Proofs.Statement.Parts

/-!
# Locals that are constructed

A local that has instances in place is filled with zeros by its declaration. If their class needs
construction, the statements behind the declaration call the class's function on each of them, in
the same block and before anything else in it. A loop cannot start with such a declaration. Where
the declaration is a branch or a body of its own, though, or the last clause of a loop's head, it is
printed all the same.
-/

namespace Emitter

open Layout Program Reading

namespace CFamily

variable {cx : Context} {d : Dialect} {decl : VarDecl} {id : ClassId} {ty : Ty} {level : Nat}
  {steps : List Step}

/-- The lengths of arrays inside each other, behind the name that is declared. -/
def lengthsCode (lengths : List UInt32) : Code :=
  lengths.flatMap fun n => [.symbol "[", .number (toString n.toNat), .symbol "]"]

/-- The tokens of the lengths. -/
def lengthsTokens (lengths : List Nat) : List Token :=
  lengths.flatMap fun n => [.symbol "[", .number (toString n), .symbol "]"]

/-- The line that declares a local and fills it with zeros. -/
def zeroedLine (type x : String) (lengths : List UInt32) : Code :=
  [.word type, .gap, .word x] ++ lengthsCode lengths ++ zeros ++ [.symbol ";"]

/-- The declaration that the line is read as. -/
def zeroed (type x : String) (lengths : List Nat) : Shape :=
  .simple (.word type :: .word x :: (lengthsTokens lengths ++
    [.symbol "=", .symbol "\x7b", .number "0", .symbol "\x7d"]))

theorem tokens_lengthsCode (lengths : List UInt32) :
    (lengthsCode lengths).tokens = lengthsTokens (lengths.map UInt32.toNat) := by
  induction lengths with
  | nil => rfl
  | cons n lengths ih =>
      have hcons : (lengthsCode (n :: lengths)).tokens =
          [Token.symbol "[", Token.number (toString n.toNat), Token.symbol "]"] ++
            (lengthsCode lengths).tokens := rfl
      rw [hcons, ih]
      rfl

theorem tokens_zeroedLine (type x : String) (lengths : List UInt32) :
    (zeroedLine type x lengths).tokens = (zeroed type x (lengths.map UInt32.toNat)).tokens := by
  simp [zeroedLine, zeroed, Shape.tokens, zeros, Code.operator, tokens_lengthsCode]

theorem balanced_lengthsTokens (lengths : List Nat) : Balanced (lengthsTokens lengths) := by
  induction lengths with
  | nil => exact .nil
  | cons n lengths ih =>
      have hlength : Balanced [.number (toString n)] := .singleton fun _ => rfl
      exact (hlength.bracketed (by decide) (by decide)).append ih

theorem sane_zeroed {type : String} (htype : .word type ∉ Shape.openers) (x : String)
    (lengths : List Nat) : (zeroed type x lengths).Sane := by
  have hnames : Balanced [.word type, .word x] := fun _ => rfl
  have hequals : Balanced [.symbol "="] := .singleton fun _ => rfl
  have hzero : Balanced [.number "0"] := .singleton fun _ => rfl
  have hzeros : Balanced [.symbol "=", .symbol "\x7b", .number "0", .symbol "\x7d"] :=
    hequals.append (hzero.bracketed (by decide) (by decide))
  have hall := hnames.append ((balanced_lengthsTokens lengths).append hzeros)
  simp only [zeroed, Shape.Sane]
  refine ⟨hall, fun t ht => ?_⟩
  obtain rfl := Option.some.inj ht
  exact htype

/-- The line is cut into its lexemes. -/
theorem isCut_zeroedLine {type x : String} (htype : isWord type = true) (hx : isWord x = true)
    (lengths : List UInt32) : IsCut (zeroedLine type x lengths) := by
  have hsymbols : ∀ s ∈ ["[", "]", "=", "\x7b", "\x7d", ";"], (Lexeme.symbol s).Spelled :=
    (by decide : ∀ s ∈ ["[", "]", "=", "\x7b", "\x7d", ";"], s.toList ∈ operators)
  have hzero : (Lexeme.number "0").Spelled := (by decide : isNumber "0" = true)
  have hgap : Lexeme.gap.Spelled := trivial
  have hnames : IsCut [.word type, .gap, .word x] :=
    .of_separate (by simp [Lexeme.Spelled, htype, hx]) (by simp [Lexeme.isSeparate])
  have hlast : IsCut (zeros ++ [Lexeme.symbol ";"]) :=
    .of_separate (by simp [zeros, Code.operator, hsymbols, hzero, hgap])
      (by simp [zeros, Code.operator, Lexeme.isSeparate])
  -- Behind the names, everything starts with a bracket or a space.
  have hrest : ∀ lengths, IsCut (lengthsCode lengths ++ (zeros ++ [Lexeme.symbol ";"])) ∧
      ∀ l ∈ (lengthsCode lengths ++ (zeros ++ [Lexeme.symbol ";"])).head?,
        l.isSeparate = true := by
    intro lengths
    induction lengths with
    | nil => exact ⟨hlast, by simp [lengthsCode, zeros, Code.operator, Lexeme.isSeparate]⟩
    | cons n lengths ih =>
        have hlength : IsCut [.symbol "[", .number (toString n.toNat), .symbol "]"] :=
          .of_separate (by
            have hnumber : (Lexeme.number (toString n.toNat)).Spelled :=
              (isNumeral_toString n.toNat).number
            simp [-Nat.toString_eq_repr, hsymbols, hnumber]) (by simp [Lexeme.isSeparate])
        refine ⟨?_, by simp [lengthsCode, Lexeme.isSeparate]⟩
        refine hlength.append ih.1 fun l hl next _ c _ => ?_
        obtain rfl : .symbol "]" = l := by simpa using hl
        exact Lexeme.extend_pending_of_isSeparate rfl c
  obtain ⟨hcut, hseparate⟩ := hrest lengths
  have hall := hnames.append hcut fun l hl next hnext c hc => by
    have hspelled : l.Spelled := hnames.spelled l (List.mem_of_getLast? hl)
    exact Lexeme.extend_separateChar hspelled
      (Lexeme.mem_separateChars_of_isSeparate (hseparate next hnext) hc)
  simpa [zeroedLine, List.append_assoc] using hall

theorem dimensions_of_nests (cx : Context) {lengths : List Nat} (hty : ty.Nests id lengths) :
    ∃ dims, lengths = dims.map UInt32.toNat ∧
      dimensions cx ty = .ok (dims, .classStorage id) := by
  induction hty with
  | direct => exact ⟨[], rfl, rfl⟩
  | @element element n lengths _ ih =>
      obtain ⟨dims, rfl, hdims⟩ := ih
      exact ⟨n :: dims, rfl, by rw [dimensions, hdims]; rfl⟩

/-- Behind the type and the name of a local with instances in place stand the lengths. -/
theorem declaration_eq (hnamed : cx.program.Named cx.target) {inner : ClassDef}
    (hclass : cx.program.classOf id = .ok inner) {lengths : List UInt32}
    (hty : ty.Nests id (lengths.map UInt32.toNat)) (name : Lexeme) :
    declaration cx d ty name = .ok ([.word inner.name, .gap, name] ++
      lengthsCode lengths) := by
  obtain ⟨dims, hlengths, hdims⟩ := dimensions_of_nests cx hty
  have hinjective : Function.Injective UInt32.toNat := fun _ _ h => UInt32.toNat_inj.mp h
  obtain rfl := List.map_injective_iff.mpr hinjective hlengths
  have hinner : cx.classOf id = .ok inner := by rw [Context.classOf, hclass, lookedUp]
  have htype : typeCode cx d (.classStorage id) = .ok [.word inner.name] := by
    rw [typeCode, hinner]
    rfl
  have hstar : Code.endsInStar [.word inner.name] = false := by
    refine decide_eq_false fun hlast => ?_
    have hword := Text.isWordChar_of_isWord (hnamed.className hinner).1 '*'
      (List.mem_of_getLast? (by simpa [Code.text, Lexeme.text] using hlast))
    exact absurd hword (by decide)
  rw [declaration, hdims]
  simp [bind, Except.bind, htype, beforeName, hstar, pure, Except.pure, lengthsCode]

/-- Code that is put piece by piece, with notices in between, is put as a whole. -/
theorem exists_play?_puts {steps : List Step}
    (hputs : ∀ step ∈ steps, (∃ code, step = .put code) ∨ ∃ notice, step = .note notice)
    (d : Desk) : ∃ notices, d.play? steps = some
      ⟨(steps.flatMap Step.code).foldl (fun w l => w.write l.text) d.writer, notices⟩ := by
  induction steps generalizing d with
  | nil => exact ⟨d.notices, rfl⟩
  | cons step steps ih =>
      obtain ⟨hstep, hputs⟩ := List.forall_mem_cons.mp hputs
      obtain ⟨d', hd', hwriter⟩ : ∃ d', d.step? step = some d' ∧
          d'.writer = step.code.foldl (fun w l => w.write l.text) d.writer := by
        rcases hstep with ⟨code, rfl⟩ | ⟨notice, rfl⟩ <;> exact ⟨_, rfl, rfl⟩
      obtain ⟨notices, hplay⟩ := ih hputs d'
      refine ⟨notices, ?_⟩
      rw [← List.singleton_append, Desk.play?_append, Desk.play?_singleton, hd', Option.bind_some,
        hplay, hwriter]
      simp

theorem addsLines_puts {steps : List Step}
    (hputs : ∀ step ∈ steps, (∃ code, step = .put code) ∨ ∃ notice, step = .note notice)
    {l : Lexeme} {code : Code} (hcode : steps.flatMap Step.code = l :: code) (hne : l.text ≠ "") :
    Emit.AddsLines level (linesText [(level, l :: code)]) ⟨steps ++ [Step.newline], .ok ()⟩ := by
  refine ⟨rfl, fun w notices hw => ?_⟩
  obtain ⟨notices', hplay⟩ := exists_play?_puts hputs ⟨w, notices⟩
  have hadds : (Emit.line (l :: code)).AddsLines level _ := addsLines_line hne
  obtain ⟨notices'', hline⟩ := hadds.plays w notices hw
  have hwhole : (Desk.mk w notices).play? (Emit.line (l :: code)).steps =
      some ⟨((l :: code).foldl (fun w l => w.write l.text) w).newline, notices⟩ := rfl
  obtain ⟨hwriter, -⟩ := Desk.mk.inj (Option.some.inj (hwhole.symm.trans hline))
  refine ⟨notices', ?_⟩
  rw [Desk.play?_append, hplay, hcode, Option.bind_some, Desk.play?_singleton]
  exact congrArg (fun w => some (Desk.mk w notices')) hwriter

/-- The lines of a declaration and of what constructs the local. -/
def constructedLines (inner : ClassDef) (x : String) (level : Nat) (lengths : List UInt32) :
    List (Nat × Code) :=
  (level, zeroedLine inner.name x lengths) ::
    elementLines (constructName inner.name) level 0 [.word x] lengths

/-- A local with instances in place that need construction is declared, and constructed behind its
declaration. -/
theorem exists_constructedLines (ht : cx.target = .cFamily d) (hnamed : cx.program.Named cx.target)
    (hty : decl.ty.InPlace id) (hneeds : cx.program.needsConstruction id = .ok true)
    (h : cx.statement (.declare decl) = ⟨steps, .ok ()⟩) (level : Nat) : ∃ inner lengths,
      cx.program.classOf id = .ok inner ∧ decl.ty.Nests id (lengths.map UInt32.toNat) ∧
      (cx.statement (.declare decl)).AddsLines level
        (linesText (constructedLines inner (cx.target.localName decl.name) level lengths)) := by
  rw [Context.statement] at h ⊢
  obtain ⟨⟨⟩, first, rest, hfirst, hrest, rfl⟩ := Emit.bind_eq_ok.mp h
  obtain ⟨last, hlast, rfl⟩ := Emit.ofSteps_bind_eq_ok.mp hrest
  have hcalls : constructCalls cx 0 [cx.localWord decl.name] decl.ty = ⟨last, .ok ()⟩ := by
    simpa only [Context.afterSimple, ht, constructLocal] using hlast
  obtain ⟨inner, lengths, hclass, hnests, hadds⟩ := exists_elementLines hty hneeds level hcalls
  have hdeclare : declareLocal cx d decl = ⟨first, .ok ()⟩ := by
    simpa only [Context.simple, Context.declareLocal, ht] using hfirst
  obtain ⟨code, hcode, hzeros⟩ := Emit.liftM_bind_eq_ok.mp hdeclare
  rw [declaration_eq hnamed hclass hnests] at hcode
  obtain rfl := Except.ok.inj hcode
  obtain ⟨second, hsecond, rfl⟩ := Emit.ofSteps_bind_eq_ok.mp hzeros
  rw [if_pos (inPlace_isStorage hty)] at hsecond
  have hsecond : second.flatMap Step.code = zeros ∧
      ∀ step ∈ second, (∃ code, step = .put code) ∨ ∃ notice, step = .note notice := by
    dsimp only at hsecond
    split_ifs at hsecond
    · obtain ⟨put, hput, rfl⟩ := Emit.ofSteps_bind_eq_ok.mp hsecond
      obtain rfl := Emit.ofSteps_eq_ok.mp hput
      simp [Step.code, zeros]
    · obtain rfl := Emit.ofSteps_eq_ok.mp hsecond
      simp [Step.code, zeros]
  have hne : (Lexeme.word inner.name).text ≠ "" := by
    intro hempty
    have hclass : cx.classOf id = .ok inner := by rw [Context.classOf, hclass, lookedUp]
    have hword := (hnamed.className hclass).1
    rw [show inner.name = "" from hempty] at hword
    exact absurd hword (by decide)
  let puts : List Step := .put ([.word inner.name, .gap, cx.localWord decl.name] ++
    lengthsCode lengths) :: (second ++ [Step.put [.symbol ";"]])
  have hputs : ∀ step ∈ puts, (∃ code, step = .put code) ∨ ∃ notice, step = .note notice := by
    simpa [puts, or_imp, forall_and] using hsecond.2
  have hline : Emit.AddsLines level
      (linesText [(level, zeroedLine inner.name (cx.target.localName decl.name) lengths)]) _ :=
    addsLines_puts hputs (by simp [puts, Step.code, hsecond.1, Context.localWord]) hne
  have hall := hline.seq hadds
  rw [← linesText_append] at hall
  refine ⟨inner, lengths, hclass, hnests, ?_⟩
  rw [h]
  simpa [constructedLines, puts, Context.localWord, Emit.bind, bind] using hall

theorem linesTokens_elementLines (function x : String) (level depth : Nat) {place : Code}
    (hplace : place.tokens = elementTokens x depth) (lengths : List UInt32) :
    linesTokens (elementLines function level depth place lengths) =
      (eachElement function x depth (lengths.map UInt32.toNat)).tokens := by
  induction lengths generalizing level depth place with
  | nil =>
      simp [elementLines, linesTokens, eachElement, Shape.tokens, hplace, Code.parenthesized]
  | cons n lengths ih =>
      have helement : Code.tokens (place ++ [.symbol "[", counter depth, .symbol "]"]) =
          elementTokens x (depth + 1) := by
        rw [Code.tokens_append, hplace, elementTokens_succ]
        rfl
      have hinner := ih (level + 1) (depth + 1) helement
      simp only [elementLines, linesTokens, List.flatMap_cons, List.map_cons, eachElement,
        Shape.tokens]
      rw [← hinner]
      rfl

/-- The name of a function that constructs is not that of a counter. -/
theorem constructName_ne_counterName (owner : String) (depth : Nat) :
    constructName owner ≠ counterName depth := by
  intro heq
  have hmem : 't' ∈ (counterName depth).toList := by
    rw [← heq]
    simp [constructName, functionName]
  have hdigit : 't' ∈ (toString depth).toList := by simpa [counterName] using hmem
  rw [Nat.toString_eq_ofList_toDigits, String.toList_ofList] at hdigit
  exact absurd (Nat.isDigit_of_mem_toDigits (by decide) (by decide) hdigit) (by decide)

/-- Lines that are read as a block of their own are read in front of the lines of others. -/
theorem readShape_blockText_append {front more : String} {stmts rest : List Shape}
    (hends : EndsLine front) (h : readShape (blockText front) = some (.block stmts))
    (h' : readShape (blockText more) = some (.block rest)) :
    readShape (blockText (front ++ more)) = some (.block (stmts ++ rest)) := by
  obtain ⟨hscan, hsane, hattached⟩ := Shape.readShape_eq_some.mp h
  have hopen : Settles ['\x7b', '\n'] [.symbol "\x7b"] := settles_lineEnd (s := "\x7b") rfl
  have hclose : scanFrom .between ['\x7d', '\n'] = some [.symbol "\x7d"] := rfl
  have hblock : (blockText front).toList = ['\x7b', '\n'] ++ (front.toList ++ ['\x7d', '\n']) := by
    simp [blockText]
  rw [scan, hblock, hopen, scanFrom_append_of_endsLine hends, hclose] at hscan
  obtain ⟨ts, hts, htokens⟩ : ∃ ts, scan front = some ts ∧ ts = Shape.tokensOf stmts := by
    cases hfront : scan front with
    | none => simp [hfront] at hscan
    | some ts => exact ⟨ts, rfl, by simpa [hfront, Shape.tokens] using hscan⟩
  rw [Shape.Sane] at hsane
  rw [Shape.attached] at hattached
  exact readShape_of_settles (settles_of_scan hends (htokens ▸ hts)) hsane hattached h'

/-- The text declares a local with arrays of the lengths inside each other and constructs it: the
class's function is called on each of its elements. -/
structure Constructs (cx : Context) (decl : VarDecl) (inner : ClassDef) (lengths : List Nat)
    (text : String) : Prop where
  /-- Between what is read as the rest of a block, the text is read as the declaration and one more
  statement in the block. -/
  reads : ∀ front more stmts rest, EndsLine front →
    readShape (blockText front) = some (.block stmts) →
    readShape (blockText more) = some (.block rest) →
    readShape (blockText (front ++ text ++ more)) = some (.block (stmts ++
      zeroed inner.name (cx.target.localName decl.name) lengths ::
        eachElement (constructName inner.name) (cx.target.localName decl.name) 0 lengths :: rest))
  /-- That statement calls the function on each element once, in row-major order, if the function's
  name is no variable's, the local's name no counter's, and the counters can hold the lengths. -/
  calls : ∀ (largest : Option Nat) (names : Names) (address : Nat),
    (∀ most ∈ largest, ∀ n ∈ lengths, n ≤ most) →
    (∀ depth < lengths.length, decl.name ≠ counterName depth) →
    let scope := (cx.target.localName decl.name, .object address) :: names
    scope.lookup (constructName inner.name) = none → ∃ indices, IsRowMajor lengths indices ∧
      elementCalls largest scope
        (eachElement (constructName inner.name) (cx.target.localName decl.name) 0 lengths) =
          some (indices.map fun is => ⟨constructName inner.name, address, is⟩)

/-- The two statements that the lines are read as. -/
theorem settles_constructedLines (ht : cx.target = .cFamily d)
    (hnamed : cx.program.Named cx.target) (hname : isWord decl.name = true) {inner : ClassDef}
    (hclass : cx.program.classOf id = .ok inner) (level : Nat) (lengths : List UInt32) :
    let x := cx.target.localName decl.name
    let stmts := [zeroed inner.name x (lengths.map UInt32.toNat),
      eachElement (constructName inner.name) x 0 (lengths.map UInt32.toNat)]
    Settles (linesText (constructedLines inner x level lengths)).toList (Shape.tokensOf stmts) ∧
      Shape.SaneAll stmts := by
  intro x stmts
  have hinner : cx.classOf id = .ok inner := by rw [Context.classOf, hclass, lookedUp]
  obtain ⟨htype, htypeFree⟩ := hnamed.className hinner
  obtain ⟨hx, hxFree⟩ := isWord_localWord cx hname
  have hconstruct : isWord "Construct" = true := by decide
  obtain ⟨hfunction, hfree⟩ := isWord_functionName htype hconstruct cx.target
  have hopeners : ∀ w : String, w ∉ statementWords → .word w ∉ Shape.openers := by
    have hwords : ∀ w : String, .word w ∈ Shape.openers → w ∈ statementWords := by
      simp [Shape.openers, statementWords]
    exact fun w hw hmem => hw (hwords w hmem)
  have hplace : Piece cx.target true 12 [.word x] (.name x) :=
    (Piece.name (.inl rfl) hx hxFree).mono (by decide)
  have hlines : ∀ line ∈ constructedLines inner x level lengths, IsCut line.2 :=
    List.forall_mem_cons.mpr ⟨isCut_zeroedLine htype hx lengths,
      isCut_elementLines ht hfunction hfree level 0 hplace rfl lengths⟩
  have htokens : linesTokens (constructedLines inner x level lengths) = Shape.tokensOf stmts := by
    have hx : Code.tokens [.word x] = elementTokens x 0 := rfl
    have hcalls := linesTokens_elementLines (constructName inner.name) x level 0 hx lengths
    rw [linesTokens] at hcalls
    simp [constructedLines, linesTokens, stmts, Shape.tokensOf, tokens_zeroedLine, hcalls]
  refine ⟨htokens ▸ settles_linesText hlines, ?_⟩
  simp only [stmts, Shape.SaneAll]
  exact ⟨sane_zeroed (hopeners _ htypeFree) _ _,
    sane_eachElement (hopeners _ (not_mem_statementWords hfree)) _ _ _, trivial⟩

theorem constructs_constructedLines (ht : cx.target = .cFamily d)
    (hnamed : cx.program.Named cx.target) (hname : isWord decl.name = true) {inner : ClassDef}
    (hclass : cx.program.classOf id = .ok inner) (level : Nat) (lengths : List UInt32) :
    Constructs cx decl inner (lengths.map UInt32.toNat)
      (linesText (constructedLines inner (cx.target.localName decl.name) level lengths)) where
  reads front more stmts rest hends hfront hmore := by
    obtain ⟨htext, hsane⟩ := settles_constructedLines ht hnamed hname hclass level lengths
    rw [String.append_assoc]
    exact readShape_blockText_append hends hfront (readShape_of_settles htext hsane
      (by simp [Shape.attachedAll, attached_eachElement, zeroed, Shape.attached]) hmore)
  calls := by
    intro largest names address hlargest hcounters scope hfunction
    refine ⟨rowMajor (lengths.map UInt32.toNat), isRowMajor_rowMajor _, ?_⟩
    have hloops : Names.Loops scope (constructName inner.name) (cx.target.localName decl.name)
        address [] := ⟨by simp, List.lookup_cons_self, hfunction⟩
    have hx : ∀ k < (lengths.map UInt32.toNat).length,
        cx.target.localName decl.name ≠ counterName (([] : List Nat).length + k) := by
      intro k hk heq
      rw [List.length_nil, Nat.zero_add] at heq
      exact hcounters k hk ((Target.localName_eq_counter_iff cx.target k).mp heq)
    have hcalls := elementCalls_eachElement (lengths.map UInt32.toNat) hloops hx
      (constructName_ne_counterName inner.name) hlargest
    simpa using hcalls

/-- A loop that starts with such a declaration is refused. -/
theorem statement_forLoop_ne_ok (ht : cx.target = .cFamily d) (hty : decl.ty.InPlace id)
    (hneeds : cx.program.needsConstruction id = .ok true) (cond : Option Expr)
    (advance : Option Stmt) (body : Stmt) :
    cx.statement (.forLoop (some (.declare decl)) cond advance body) ≠ ⟨steps, .ok ()⟩ := by
  intro h
  rw [Context.statement] at h
  obtain ⟨⟨⟩, head, -, hhead, -⟩ := Emit.bind_eq_ok.mp h
  obtain ⟨first, -, -, hstart, -⟩ := Context.loopHead_eq_ok hhead
  have hholds : cx.program.holdsConstructed decl.ty = .ok true := by
    rw [holdsConstructed, Ty.heldClass_eq_some_iff.mpr hty]
    exact hneeds
  rw [Context.startClause, Context.loopStart, ht] at hstart
  obtain ⟨⟨⟩, hcheck, -⟩ := Emit.liftM_bind_eq_ok.mp hstart
  simp [checkLoopStart, hholds, lookedUp, Context.unsupported, bind, Except.bind] at hcheck

end CFamily

open CFamily

section Files

variable {d : Dialect} {p : Program} {o : Options} {files : List OutputFile} {id : ClassId}
  {c : ClassDef} {r : Routine}

/-- In a C file that is written, no loop starts with a local that has instances in place and whose
class needs construction. Where such a local is declared in a list of statements, the lines of its
declaration stand between those of the other statements, and declare and construct it. -/
theorem locals_are_constructed (h : (generate (Target.cFamily d).name p o).files = .ok files)
    (hid : id ∈ p.globalClassIds) (hc : p.classOf id = .ok c) (hr : r.IsOf c)
    (hnamed : p.Named (.cFamily d)) :
    let cx : Context := ⟨p, .cFamily d, none⟩
    let body := Stmt.block (r.stmts c)
    ∃ contents, files = [⟨outputPath (.cFamily d) o.output, contents⟩] ∧
      ∀ decl held, decl.ty.InPlace held → p.needsConstruction held = .ok true →
        isWord decl.name = true →
        (∀ cond advance inside,
          ¬(Stmt.forLoop (some (.declare decl)) cond advance inside).Within body) ∧
        ∀ before after, (Stmt.block (before ++ .declare decl :: after)).Within body →
          ∃ inner lengths ahead level first text last behind,
            p.classOf held = .ok inner ∧ decl.ty.Nests held lengths ∧
            contents = ahead ++ (first ++ text ++ last) ++ behind ∧
            (cx.statements before).AddsLines level first ∧ EndsLine first ∧
            (cx.statements after).AddsLines level last ∧
            Constructs cx decl inner lengths text := by
  intro cx body
  obtain ⟨contents, steps, hfiles, hroutine, hlines⟩ := exists_lines_of_routine h hid hc hr
  refine ⟨contents, hfiles, fun decl held hty hneeds hname => ⟨?_, fun before after hwithin => ?_⟩⟩
  · intro cond advance inside hwithin
    have hinside : inside ∈ (Stmt.forLoop (some (.declare decl)) cond advance inside).children :=
      Context.mem_children_of_mem_bodies (List.mem_singleton_self inside)
    have hpart : (cx.statement _).IsPart (cx.routine c r) := Context.isPart_routine_of_within
      (Context.simple_ne_ok_of_mem_children hinside) rfl hwithin
    obtain ⟨-, _, -, hloop, -⟩ := hpart steps hroutine
    exact statement_forLoop_ne_ok rfl hty hneeds cond advance inside hloop
  · have hpart : (cx.statements _).IsLinesOf (cx.routine c r) := Context.isLinesOf_routine hwithin
    obtain ⟨-, _, -, hsteps, -⟩ := hpart steps hroutine
    obtain ⟨level, ahead, lines, behind, hadds, hcontents⟩ := hlines _ hpart fun level =>
      (Context.exists_addsLines_statements hsteps level).imp fun _ => And.left
    have hsplit : cx.statements (before ++ .declare decl :: after) = (do
        cx.statements before
        cx.statement (.declare decl)
        cx.statements after) := by
      rw [Context.statements_append, Context.statements]
    rw [hsplit] at hsteps hadds
    obtain ⟨⟨⟩, _, _, hbefore, hmore, -⟩ := Emit.bind_eq_ok.mp hsteps
    obtain ⟨⟨⟩, _, _, hdecl, hafter, -⟩ := Emit.bind_eq_ok.mp hmore
    obtain ⟨first, hfirst, hends⟩ := Context.exists_addsLines_statements hbefore level
    obtain ⟨last, hlast, -⟩ := Context.exists_addsLines_statements hafter level
    obtain ⟨inner, lengths, hclass, hnests, htext⟩ :=
      exists_constructedLines (rfl : cx.target = .cFamily d) hnamed hty hneeds hdecl level
    obtain rfl := hadds.unique (hfirst.seq (htext.seq hlast))
    refine ⟨inner, _, ahead, level, first, _, last, behind, hclass, hnests, ?_, hfirst, hends,
      hlast,
      constructs_constructedLines rfl hnamed hname hclass level lengths⟩
    rw [hcontents]
    simp only [String.append_assoc]

/-- A class with a value, and one with a method that has the body. -/
def Program.playing (body : Block) : Program :=
  ⟨[], [⟨"Cell", .exported, none, none, [.field ⟨"size", .exported, none, .int .int,
        some (.literal (.int 1) (.int .int))⟩], []⟩,
      ⟨"Game", .exported, none, none,
        [.method ⟨"play", .exported, none, true, [], .void, body⟩], []⟩],
    [.classDef ⟨0⟩, .classDef ⟨1⟩], [], .empty⟩

/-- A block with two cells, each of which is constructed before the block returns. -/
theorem locals_are_constructed_cells : ∃ contents ahead first text last behind,
    (generate "c" (.playing [.block [
        .declare ⟨"cells", .array (.classStorage ⟨0⟩) true (some 2), none⟩, .returnValue none]])
      ⟨⟨"game"⟩, none⟩).files = .ok [⟨⟨"game.c"⟩, contents⟩] ∧
    contents = ahead ++ (first ++ text ++ last) ++ behind ∧
    readShape (blockText (first ++ text ++ last)) = some (.block
      [zeroed "Cell" "cells" [2], eachElement "Cell_Construct" "cells" 0 [2],
        .simple [.word "return"]]) ∧
    elementCalls (some 2147483647) [("cells", .object 0)]
      (eachElement "Cell_Construct" "cells" 0 [2]) =
        some [⟨"Cell_Construct", 0, [0]⟩, ⟨"Cell_Construct", 0, [1]⟩] := by
  let decl : VarDecl := ⟨"cells", .array (.classStorage ⟨0⟩) true (some 2), none⟩
  let p : Program := .playing [.block [.declare decl, .returnValue none]]
  let cx : Context := ⟨p, .cFamily .standard, none⟩
  have hrun : (generate "c" p ⟨⟨"game"⟩, none⟩).files.toOption.isSome = true := by decide +kernel
  obtain ⟨files, hfiles⟩ := Option.isSome_iff_exists.mp hrun
  have hnamed : p.Named (.cFamily .standard) := ⟨by simp [p, playing], by decide +kernel⟩
  have hid : (⟨1⟩ : ClassId) ∈ p.globalClassIds := List.mem_of_getElem? (i := 1) rfl
  obtain ⟨contents, rfl, hlocals⟩ := locals_are_constructed (d := .standard)
    (Result.eq_ok_of_toOption hfiles) hid rfl
    (r := .method ⟨"play", .exported, none, true, [], .void, _⟩) (List.mem_singleton_self _) hnamed
  have hnests : decl.ty.Nests ⟨0⟩ [2] := @Ty.Nests.element ⟨0⟩ _ 2 _ .direct
  obtain ⟨-, hlists⟩ := hlocals decl ⟨0⟩ hnests.inPlace rfl (by decide)
  obtain ⟨inner, lengths, ahead, level, first, text, last, behind, hclass, hlengths, hcontents,
    hfirst, hends, hlast, hconstructs⟩ := hlists [] [.returnValue none]
      (.child (List.mem_singleton_self _) .refl)
  obtain rfl := Except.ok.inj hclass
  obtain ⟨-, rfl⟩ := hlengths.unique hnests
  obtain rfl := hfirst.unique Emit.addsLines_pure
  have hnamedIn : cx.program.Named cx.target := hnamed
  obtain ⟨stmts, hstmts, hread⟩ :=
    exists_readShape_statements hnamedIn (by decide) (by decide) hlast
  obtain rfl := Option.some.inj hstmts
  have hname : cx.target.localName decl.name = "cells" := by decide +kernel
  have hreads := hconstructs.reads "" last [] _ hends rfl hread
  obtain ⟨indices, hindices, hcalls⟩ := hconstructs.calls (some 2147483647) [] 0 (by decide)
    (by decide) (by decide +kernel)
  obtain rfl := hindices.unique (isRowMajor_rowMajor [2])
  rw [hname] at hreads hcalls
  exact ⟨contents, ahead, "", text, last, behind, Result.eq_ok_of_toOption hfiles, hcontents,
    hreads, hcalls⟩

/-- Where such a local is a branch or a body of its own, the same lines are read otherwise: the
branch or the body is the declaration, and the statement that constructs the local is left behind
it. -/
theorem locals_are_left_behind (h : (generate (Target.cFamily d).name p o).files = .ok files)
    (hid : id ∈ p.globalClassIds) (hc : p.classOf id = .ok c) (hr : r.IsOf c)
    (hnamed : p.Named (.cFamily d)) :
    let cx : Context := ⟨p, .cFamily d, none⟩
    ∃ contents, files = [⟨outputPath (.cFamily d) o.output, contents⟩] ∧
      ∀ (decl : VarDecl) (held : ClassId) (outer : Stmt), decl.ty.InPlace held →
        p.needsConstruction held = .ok true → isWord decl.name = true →
        outer.Within (.block (r.stmts c)) → .declare decl ∈ outer.bodies →
        ∃ inner lengths ahead level text behind,
          let declared := zeroed inner.name (cx.target.localName decl.name) lengths
          let calls :=
            eachElement (constructName inner.name) (cx.target.localName decl.name) 0 lengths
          p.classOf held = .ok inner ∧ decl.ty.Nests held lengths ∧
          contents = ahead ++ text ++ behind ∧
          (cx.statement (.declare decl)).AddsLines level text ∧
          scan text = some (declared.tokens ++ calls.tokens) ∧
          ∀ fuel more, readStatement (fuel + 1) (declared.tokens ++ (calls.tokens ++ more)) =
            some (declared, calls.tokens ++ more) := by
  intro cx
  obtain ⟨contents, steps, hfiles, hroutine, hlines⟩ := exists_lines_of_routine h hid hc hr
  refine ⟨contents, hfiles, fun decl held outer hty hneeds hname hwithin hbody => ?_⟩
  have hchild := Context.mem_children_of_mem_bodies hbody
  have hblock : outer.isBlock = false := by
    cases outer with
    | block => exact absurd hbody List.not_mem_nil
    | _ => rfl
  have hlinesOf : (cx.statement (.declare decl)).IsLinesOf (cx.statement outer) :=
    Context.isLinesOf_bodies hbody rfl rfl
  have hpart := hlinesOf.trans
    (Context.isPart_routine_of_within (Context.simple_ne_ok_of_mem_children hchild) hblock hwithin)
  obtain ⟨-, _, -, hdecl, -⟩ := hpart steps hroutine
  have hadds :=
    exists_constructedLines (rfl : cx.target = .cFamily d) hnamed hty hneeds hdecl
  obtain ⟨level, ahead, text, behind, htext, hcontents⟩ := hlines _ hpart fun level => by
    obtain ⟨inner, lengths, -, -, hadds⟩ := hadds level
    exact ⟨_, hadds⟩
  obtain ⟨inner, lengths, hclass, hnests, hadds⟩ := hadds level
  obtain rfl := htext.unique hadds
  obtain ⟨hsettles, hsane⟩ := settles_constructedLines rfl hnamed hname hclass level lengths
  refine ⟨inner, _, ahead, level, _, behind, hclass, hnests, hcontents, htext, ?_,
    fun fuel more => ?_⟩
  · have hscan := hsettles []
    rw [List.append_nil] at hscan
    simpa [scan, scanFrom, Shape.tokensOf] using hscan
  · simp only [Shape.SaneAll] at hsane
    exact Shape.readStatement_simple hsane.1 fuel _

/-- A cell that is a branch of its own, and one in the last clause of a loop's head. -/
theorem locals_stay_unconstructed : ∃ contents ahead inside behind,
    (generate "c" (.playing [
        .branch (.literal (.bool true) .bool) (.declare ⟨"cell", .classStorage ⟨0⟩, none⟩) none,
        .forLoop none none (some (.declare ⟨"spare", .classStorage ⟨0⟩, none⟩)) (.block [])])
      ⟨⟨"game"⟩, none⟩).files = .ok [⟨⟨"game.c"⟩, contents⟩] ∧
    contents = ahead ++ ("void Game_play(void)\n" ++ blockText inside) ++ behind ∧
    readShape (blockText inside) = some (.block [
      .branch [.word "true"] (zeroed "Cell" "cell" []) none,
      eachElement "Cell_Construct" "cell" 0 [],
      .forLoop [] [] [.word "Cell", .word "spare", .symbol "=", .symbol "\x7b", .number "0",
        .symbol "\x7d"] (.block [])]) := by
  let body : Block := [
    .branch (.literal (.bool true) .bool) (.declare ⟨"cell", .classStorage ⟨0⟩, none⟩) none,
    .forLoop none none (some (.declare ⟨"spare", .classStorage ⟨0⟩, none⟩)) (.block [])]
  let c : ClassDef := (Program.playing body).classes.get ⟨1, by decide⟩
  let r : Routine := .method ⟨"play", .exported, none, true, [], .void, body⟩
  let inside := "\tif (true)\n\t\tCell cell = \x7b 0 \x7d;\n\t\tCell_Construct(&cell);\n" ++
    "\tfor (;; Cell spare = \x7b 0 \x7d) \x7b\n\t\x7d\n"
  have hrun : (generate "c" (.playing body) ⟨⟨"game"⟩, none⟩).files.toOption.isSome = true := by
    decide +kernel
  obtain ⟨files, hfiles⟩ := Option.isSome_iff_exists.mp hrun
  have hfiles := Result.eq_ok_of_toOption hfiles
  obtain ⟨contents, rfl, -, hitems⟩ := exists_placed (d := .standard) hfiles
  have hid : (⟨1⟩ : ClassId) ∈ (Program.playing body).globalClassIds :=
    List.mem_of_getElem? (i := 1) rfl
  have hmem : Item.routine ⟨1⟩ c r ∈ items ⟨.playing body, .cFamily .standard, none⟩ .standard :=
    mem_items_routine hid rfl (List.mem_singleton_self _)
  obtain ⟨front, back, hsplit⟩ := List.append_of_mem hmem
  obtain ⟨-, -, ahead, behind, hcontents, -⟩ := hitems front _ back hsplit
  have htext : Item.text ⟨.playing body, .cFamily .standard, none⟩ .standard (.routine ⟨1⟩ c r) =
      "void Game_play(void)\n" ++ blockText inside := by decide +kernel
  rw [htext] at hcontents
  refine ⟨contents, ahead, inside, behind, hfiles, hcontents,
    Shape.readShape_eq_some.mpr ⟨by decide +kernel, ?_, rfl⟩⟩
  have hopeners : ∀ w ∈ ["Cell", "Cell_Construct"], .word w ∉ Shape.openers := by decide
  have hcond : Balanced [.word "true"] := fun _ => rfl
  have hadvance : Balanced [.word "Cell", .word "spare", .symbol "=", .symbol "\x7b", .number "0",
      .symbol "\x7d"] := fun _ => rfl
  simp only [Shape.Sane, Shape.SaneAll]
  exact ⟨⟨hcond, sane_zeroed (hopeners _ (by decide)) _ _⟩,
    sane_eachElement (hopeners _ (by decide)) _ _ _, ⟨.nil, .nil, hadvance, trivial⟩, trivial⟩

end Files

end Emitter
