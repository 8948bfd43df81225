import Emitter.Proofs.Capture.Body
import Emitter.Proofs.Storage.Constructors

/-!
# Statements inside functions

What is printed for the statements of a block, or for a branch or a body without braces, stands as a
whole in what is printed around it: in any statement, in the body of a function, and in the file.
Only its level is its own.
-/

namespace Emitter

open Layout Program

namespace Program.Stmt

/-- The statement is the other one, or stands in it. -/
inductive Within (s : Stmt) : Stmt → Prop
  | refl : Within s s
  | child {child outer : Stmt} (hchild : child ∈ outer.children) (h : Within s child) :
      Within s outer

/-- The statements that are the branches or the body of a statement. -/
def bodies : Stmt → List Stmt
  | .branch _ onTrue onFalse => onTrue :: onFalse.toList
  | .whileLoop _ body | .doLoop body _ | .forLoop _ _ _ body => [body]
  | _ => []

end Program.Stmt

namespace Emit

variable {α : Type} {e first whole : Emit Unit} {next : α → Emit Unit}

/-- Where the whole goes through, the emission has gone through as a part of it. -/
def IsPart (e whole : Emit Unit) : Prop :=
  ∀ steps, whole = ⟨steps, .ok ()⟩ → ∃ before inner after,
    e = ⟨inner, .ok ()⟩ ∧ steps = before ++ (inner ++ after)

theorem IsPart.refl (e : Emit Unit) : e.IsPart e := fun steps h => ⟨[], steps, [], h, by simp⟩

theorem IsPart.trans (h : e.IsPart first) (h' : first.IsPart whole) : e.IsPart whole := by
  intro steps hsteps
  obtain ⟨before, inner, after, hfirst, rfl⟩ := h' steps hsteps
  obtain ⟨before', inner', after', he, rfl⟩ := h inner hfirst
  exact ⟨before ++ before', inner', after' ++ after, he, by simp⟩

theorem isPart_first (next : Unit → Emit Unit) : e.IsPart (e >>= next) := by
  intro steps h
  obtain ⟨⟨⟩, inner, rest, he, -, rfl⟩ := bind_eq_ok.mp h
  exact ⟨[], inner, rest, he, rfl⟩

theorem isPart_next (e' : Emit α) (h : ∀ a, e.IsPart (next a)) : e.IsPart (e' >>= next) := by
  intro steps hsteps
  obtain ⟨a, first, rest, -, hrest, rfl⟩ := bind_eq_ok.mp hsteps
  obtain ⟨before, inner, after, he, rfl⟩ := h a rest hrest
  exact ⟨first ++ before, inner, after, he, by simp⟩

theorem isPart_indented (e : Emit Unit) : e.IsPart e.indented := by
  intro steps h
  obtain ⟨inner, he, rfl⟩ := indented_eq_ok.mp h
  exact ⟨[.indent], inner, [.dedent], he, by simp⟩

theorem isPart_braced (e : Emit Unit) : e.IsPart e.braced := by
  intro steps h
  obtain ⟨inner, he, rfl⟩ := braced_eq_ok.mp h
  exact ⟨[.put [.symbol "\x7b"], .newline, .indent], inner,
    [.dedent, .put [.symbol "\x7d"], .newline], he, by simp⟩

end Emit

namespace Context

variable {cx : Context} {s child : Stmt} {stmts : List Stmt} {printed : Emit Unit}

theorem isPart_nested (s : Stmt) (printed : Emit Unit) : printed.IsPart (nested s printed) := by
  unfold nested
  split
  · exact Emit.isPart_next _ fun _ => .refl _
  · exact Emit.isPart_next _ fun _ => Emit.isPart_indented _

theorem isPart_alternative (s : Stmt) (printed : Emit Unit) :
    printed.IsPart (alternative s printed) := by
  refine Emit.isPart_next _ fun _ => ?_
  split
  · exact Emit.isPart_next _ fun _ => .refl _
  · exact isPart_nested s printed

theorem statements_append (front back : List Stmt) :
    cx.statements (front ++ back) = (do cx.statements front; cx.statements back) := by
  induction front with
  | nil => simp [statements]
  | cons s front ih => simp [statements, ih]

theorem isPart_statements (hs : s ∈ stmts) : (cx.statement s).IsPart (cx.statements stmts) := by
  obtain ⟨front, back, rfl⟩ := List.append_of_mem hs
  rw [statements_append]
  exact Emit.isPart_next _ fun _ => Emit.isPart_first _

theorem isPart_loopStart (start : Stmt) : (cx.simple start).IsPart (cx.loopStart start) := by
  unfold loopStart
  split
  · exact .refl _
  · exact Emit.isPart_next _ fun _ => .refl _

/-- The clauses of a loop's head are parts of it. -/
theorem isPart_loopHead {start advance : Option Stmt} {cond : Option Expr}
    (hs : s ∈ start ∨ s ∈ advance) : (cx.simple s).IsPart (cx.loopHead start cond advance) := by
  rw [loopHead_eq]
  refine Emit.isPart_next _ fun _ => ?_
  rcases hs with rfl | rfl
  · exact (isPart_loopStart s).trans (Emit.isPart_first _)
  · refine Emit.isPart_next _ fun _ => Emit.isPart_next _ fun _ => Emit.isPart_next _ fun _ =>
      Emit.isPart_next _ fun _ => Emit.IsPart.trans ?_ (Emit.isPart_first _)
    exact Emit.isPart_next _ fun _ => .refl _

/-- A statement in another one is printed as a part of it, on its own or as a clause of a loop. -/
theorem isPart_statement (cx : Context) (hchild : child ∈ s.children) :
    (cx.statement child).IsPart (cx.statement s) ∨ (cx.simple child).IsPart (cx.statement s) := by
  cases s with
  | block stmts =>
      rw [statement]
      exact .inl ((isPart_statements hchild).trans (Emit.isPart_braced _))
  | branch cond onTrue onFalse =>
      cases onFalse with
      | none =>
          obtain rfl : child = onTrue := by simpa [Stmt.children] using hchild
          rw [statement]
          exact .inl (Emit.isPart_next _ fun _ => isPart_nested _ _)
      | some onFalse =>
          have hchild : child = onTrue ∨ child = onFalse := by simpa [Stmt.children] using hchild
          rw [statement]
          refine .inl (Emit.isPart_next _ fun _ => ?_)
          rcases hchild with rfl | rfl
          · exact (isPart_nested _ _).trans (Emit.isPart_first _)
          · exact Emit.isPart_next _ fun _ => isPart_alternative _ _
  | whileLoop cond body =>
      obtain rfl : child = body := by simpa [Stmt.children] using hchild
      rw [statement]
      exact .inl (Emit.isPart_next _ fun _ => isPart_nested _ _)
  | doLoop body cond =>
      obtain rfl : child = body := by simpa [Stmt.children] using hchild
      rw [statement]
      exact .inl (Emit.isPart_next _ fun _ => (isPart_nested _ _).trans (Emit.isPart_first _))
  | forLoop start cond advance body =>
      rw [statement]
      have hchild : (child ∈ start ∨ child ∈ advance) ∨ child = body := by
        simpa [Stmt.children, or_assoc] using hchild
      rcases hchild with hclause | rfl
      · exact .inr ((isPart_loopHead hclause).trans (Emit.isPart_first _))
      · exact .inl (Emit.isPart_next _ fun _ => isPart_nested _ _)
  | _ => exact absurd hchild (List.not_mem_nil)

/-- A clause of a loop has no statements in it. -/
theorem children_eq_nil_of_simple {steps : List Step} (h : cx.simple s = ⟨steps, .ok ()⟩) :
    s.children = [] := by
  cases s with
  | eval e | declare decl | assign target op value => rfl
  | _ =>
      exact absurd h (by
        simp [simple, unsupported, liftM, monadLift, MonadLift.monadLift, Emit.ofResult])

theorem simple_ne_ok_of_mem_children (h : child ∈ s.children) (steps : List Step) :
    cx.simple s ≠ ⟨steps, .ok ()⟩ := fun hsteps =>
  List.ne_nil_of_mem h (children_eq_nil_of_simple hsteps)

theorem mem_children_of_mem_bodies (h : child ∈ s.bodies) : child ∈ s.children := by
  cases s with
  | branch | whileLoop | doLoop => exact h
  | forLoop => exact List.mem_append_right _ h
  | _ => exact absurd h List.not_mem_nil

/-- A statement that cannot be a clause is printed as a part of any statement around it. -/
theorem isPart_of_within {t : Stmt} (ht : ∀ steps, cx.simple t ≠ ⟨steps, .ok ()⟩)
    (h : t.Within s) : (cx.statement t).IsPart (cx.statement s) := by
  induction h with
  | refl => exact .refl _
  | child hchild hwithin ih =>
      rcases isPart_statement cx hchild with hpart | hpart
      · exact ih.trans hpart
      · intro steps hsteps
        obtain ⟨-, inner, -, hinner, -⟩ := hpart steps hsteps
        cases hwithin with
        | refl => exact absurd hinner (ht inner)
        | child hchild =>
            rw [children_eq_nil_of_simple hinner] at hchild
            exact absurd hchild List.not_mem_nil

end Context

/-! Within the text of a block each statement stands on lines of its own, whose text does not depend
on what was printed before. -/

namespace Emit

theorem AddsLines.unique {e : Emit Unit} {level : Nat} {text text' : String}
    (h : e.AddsLines level text) (h' : e.AddsLines level text') : text = text' := by
  obtain ⟨notices, hplay⟩ := h.plays { Writer.new with indent := level } [] ⟨rfl, rfl⟩
  obtain ⟨notices', hplay'⟩ := h'.plays { Writer.new with indent := level } [] ⟨rfl, rfl⟩
  have hdesk := Option.some.inj (hplay.symm.trans hplay')
  simpa [Writer.further, Writer.new] using congrArg (·.writer.out) hdesk

/-- Steps add the same text wherever they can be taken. -/
theorem exists_further {steps : List Step} (hstay : ∀ step ∈ steps, step.staysInFile = true)
    {indent : Nat} {start : Bool} {w : Writer} (hw : w.At indent start) {notices : List Notice}
    {d : Desk} (h : (Desk.mk w notices).play? steps = some d) : ∃ added indent',
      d.writer = w.further added indent' (Step.endsLine start steps) := by
  rcases Step.uniform hstay indent start with ⟨added, indent', hall⟩ | hnone
  · obtain ⟨notices', hplay⟩ := hall w notices hw
    obtain rfl := Option.some.inj (h.symm.trans hplay)
    exact ⟨added, indent', rfl⟩
  · exact absurd (h.symm.trans (hnone w notices hw)) (Option.some_ne_none d)

/-- Where the whole goes through, the emission has gone through as a part of it that began where a
line starts. -/
def IsLinesOf (e whole : Emit Unit) : Prop :=
  ∀ steps, whole = ⟨steps, .ok ()⟩ → ∃ before inner after, e = ⟨inner, .ok ()⟩ ∧
    steps = before ++ (inner ++ after) ∧ ∀ start, Step.endsLine start before = true

variable {α : Type} {e first whole : Emit Unit} {level : Nat} {text : String}

theorem IsLinesOf.trans (h : e.IsLinesOf first) (h' : first.IsPart whole) : e.IsLinesOf whole := by
  intro steps hsteps
  obtain ⟨before, inner, after, hfirst, rfl⟩ := h' steps hsteps
  obtain ⟨before', inner', after', he, rfl, hends⟩ := h inner hfirst
  exact ⟨before ++ before', inner', after' ++ after, he, by simp, fun start => by simp [hends]⟩

theorem IsLinesOf.behind {next : α → Emit Unit} (e' : Emit α) (h : ∀ a, e.IsLinesOf (next a)) :
    e.IsLinesOf (e' >>= next) := by
  intro steps hsteps
  obtain ⟨a, first, rest, -, hrest, rfl⟩ := bind_eq_ok.mp hsteps
  obtain ⟨before, inner, after, he, rfl, hends⟩ := h a rest hrest
  exact ⟨first ++ before, inner, after, he, by simp, fun start => by
    rw [Step.endsLine_append, hends]⟩

theorem isLinesOf_indented (e : Emit Unit) : e.IsLinesOf (do newline; e.indented) := by
  intro steps h
  obtain ⟨rest, hrest, rfl⟩ := ofSteps_bind_eq_ok.mp h
  obtain ⟨inner, he, rfl⟩ := indented_eq_ok.mp hrest
  exact ⟨[.newline, .indent], inner, [.dedent], he, by simp, fun _ => rfl⟩

/-- Between braces, behind what ends its lines. -/
theorem isLinesOf_braced (h : first.Keeps) : e.IsLinesOf (do first; e).braced := by
  intro steps hsteps
  obtain ⟨inside, hinside, rfl⟩ := braced_eq_ok.mp hsteps
  obtain ⟨⟨⟩, front, inner, hfront, he, rfl⟩ := bind_eq_ok.mp hinside
  refine ⟨[Step.put [.symbol "\x7b"], Step.newline, Step.indent] ++ front, inner,
    [.dedent, .put [.symbol "\x7d"], .newline], he, by simp, fun start => ?_⟩
  rw [Step.endsLine_append]
  exact h front () hfront

/-- Lines that are printed as a part of others are a part of their text. -/
theorem IsLinesOf.exists_text (hpart : e.IsLinesOf whole) (h : whole.AddsLines level text)
    (hstay : ∀ step ∈ whole.steps, step.staysInFile = true)
    (hlines : ∀ level, ∃ inside, e.AddsLines level inside) : ∃ level' ahead inside behind,
      e.AddsLines level' inside ∧ text = ahead ++ inside ++ behind := by
  let w : Writer := { Writer.new with indent := level }
  obtain ⟨before, mid, after, he, hsteps, hends⟩ := hpart whole.steps (by rw [← h.outcome])
  obtain ⟨notices, hplay⟩ := h.plays w [] ⟨rfl, rfl⟩
  rw [hsteps, Desk.play?_append] at hplay
  obtain ⟨d, hfirst, hplay⟩ := Option.bind_eq_some_iff.mp hplay
  have hstay : ∀ part ∈ [before, mid, after], ∀ step ∈ part, step.staysInFile = true := by
    simpa [hsteps, or_imp, forall_and] using hstay
  obtain ⟨ahead, level', hd⟩ :=
    exists_further (hstay before (by simp)) (show w.At level true from ⟨rfl, rfl⟩) hfirst
  rw [hends] at hd
  obtain ⟨inside, hinside⟩ := hlines level'
  have hat : d.writer.At level' true := hd ▸ Writer.at_further w ahead
  obtain ⟨notices', hmid⟩ := hinside.plays d.writer d.notices hat
  rw [he] at hmid
  rw [Desk.play?_append, hmid, Option.bind_some] at hplay
  obtain ⟨behind, level'', hlast⟩ :=
    exists_further (hstay after (by simp)) (Writer.at_further d.writer inside) hplay
  refine ⟨level', ahead, inside, behind, hinside, ?_⟩
  have hout := congrArg Writer.out hlast
  simpa [hd, w, Writer.further, Writer.new, String.append_assoc] using hout

end Emit

/-- The function is one of the class: one of its methods, or its constructor if it has one. -/
def Program.Routine.IsOf (c : ClassDef) : Routine → Prop
  | method m => m ∈ c.methods
  | constructor => c.constructor?.isSome = true

theorem Program.needsConstruction_of_constructor {p : Program} {id : ClassId} {c : ClassDef}
    (hc : p.classOf id = .ok c) (h : c.constructor?.isSome = true) :
    p.needsConstruction id = .ok true := by
  simp [needsConstruction, constructsWithin, hc, ClassDef.initializes, h, bind, Except.bind, pure,
    Except.pure]

namespace Context

variable {cx : Context} {c : ClassDef} {r : Routine}

theorem keeps_fieldSetup (f : FieldDef) : (CFamily.fieldSetup cx c f).Keeps := by
  unfold CFamily.fieldSetup
  split
  · exact (Emit.ends_bind fun _ => Emit.ends_line _).keeps
  · dsimp only
    split_ifs
    · exact (Emit.keeps_note _).bind fun _ => CFamily.keeps_constructCalls
    · exact CFamily.keeps_constructCalls

theorem isPart_routine {s : Stmt} (hs : s ∈ r.stmts c) :
    (cx.statement s).IsPart (cx.routine c r) :=
  (isPart_statements hs).trans
    ((Emit.isPart_next _ fun _ => .refl _).trans (Emit.isPart_braced _))

/-- A statement anywhere in a function that is neither a block nor a clause is printed as a part of
the function's body. -/
theorem isPart_routine_of_within {s : Stmt} (hsimple : ∀ steps, cx.simple s ≠ ⟨steps, .ok ()⟩)
    (hblock : s.isBlock = false) (h : s.Within (.block (r.stmts c))) :
    (cx.statement s).IsPart (cx.routine c r) := by
  cases h with
  | refl => exact Bool.noConfusion hblock
  | child hchild hwithin => exact (isPart_of_within hsimple hwithin).trans (isPart_routine hchild)

/-- The statements of a block anywhere in a function are lines of its body. -/
theorem isLinesOf_routine {stmts : List Stmt}
    (h : (Stmt.block stmts).Within (.block (r.stmts c))) :
    (cx.statements stmts).IsLinesOf (cx.routine c r) := by
  cases h with
  | refl => exact Emit.isLinesOf_braced (Emit.keeps_forM fun f _ => keeps_fieldSetup f)
  | @child s _ hchild hwithin =>
      have hblock : (cx.statements stmts).IsLinesOf (cx.statement (.block stmts)) := by
        have hinner := Emit.isLinesOf_braced (e := cx.statements stmts) (Emit.keeps_pure ())
        rwa [pure_bind, ← statement] at hinner
      have hsimple : ∀ steps, cx.simple (.block stmts) ≠ ⟨steps, .ok ()⟩ := fun steps hsteps =>
        absurd hsteps (by
          simp [simple, unsupported, liftM, monadLift, MonadLift.monadLift, Emit.ofResult])
      exact hblock.trans ((isPart_of_within hsimple hwithin).trans (isPart_routine hchild))

/-- A branch or a body without braces is printed as lines of its own. -/
theorem isLinesOf_bodies {s outer : Stmt} (hs : s ∈ outer.bodies) (hblock : s.isBlock = false)
    (hbranch : s.isBranch = false) : (cx.statement s).IsLinesOf (cx.statement outer) := by
  have hnested : ∀ printed : Emit Unit, printed.IsLinesOf (nested s printed) := by
    intro printed
    rw [nested, hblock]
    exact Emit.isLinesOf_indented printed
  have halternative : ∀ printed : Emit Unit, printed.IsLinesOf (alternative s printed) := by
    intro printed
    rw [alternative, hbranch]
    exact .behind _ fun _ => hnested printed
  cases outer with
  | branch cond onTrue onFalse =>
      cases onFalse with
      | none =>
          obtain rfl : s = onTrue := by simpa [Stmt.bodies] using hs
          rw [statement]
          exact .behind _ fun _ => hnested _
      | some onFalse =>
          have hs : s = onTrue ∨ s = onFalse := by simpa [Stmt.bodies] using hs
          rw [statement]
          refine .behind _ fun _ => ?_
          rcases hs with rfl | rfl
          · exact (hnested _).trans (Emit.isPart_first _)
          · exact .behind _ fun _ => halternative _
  | whileLoop cond body =>
      obtain rfl := List.mem_singleton.mp hs
      rw [statement]
      exact .behind _ fun _ => hnested _
  | doLoop body cond =>
      obtain rfl := List.mem_singleton.mp hs
      rw [statement]
      exact .behind _ fun _ => (hnested _).trans (Emit.isPart_first _)
  | forLoop start cond advance body =>
      obtain rfl := List.mem_singleton.mp hs
      rw [statement]
      exact .behind _ fun _ => hnested _
  | _ => exact absurd hs List.not_mem_nil

theorem staysInFile_routine {steps : List Step} (h : cx.routine c r = ⟨steps, .ok ()⟩) :
    ∀ step ∈ steps, step.staysInFile = true := by
  have hfields : ((r.fields cx.target c).forM (CFamily.fieldSetup cx c)).Prints cx _ :=
    Emit.prints_forM fun f _ => CFamily.prints_fieldSetup f
  have hstmts : (cx.statements (r.stmts c)).Prints cx _ :=
    prints_statements fun s _ => prints_statement s
  exact ((hfields.seq hstmts).braced steps () h).1

theorem exists_addsLines_routine {steps : List Step} (h : cx.routine c r = ⟨steps, .ok ()⟩)
    (level : Nat) : ∃ inside, (cx.routine c r).AddsLines level
      (Writer.margin level ++ "\x7b\n" ++ inside ++ Writer.margin level ++ "\x7d\n") := by
  obtain ⟨inside, hinside, hsteps⟩ := Emit.braced_eq_ok.mp h
  have hfields : ((r.fields cx.target c).forM (CFamily.fieldSetup cx c)).Plays :=
    Emit.plays_forM fun f _ => CFamily.plays_fieldSetup c f
  have hstmts : (cx.statements (r.stmts c)).Plays := plays_statements fun s _ => plays_statement s
  have hstay : ∀ step ∈ inside, step.staysInFile = true := fun step hstep =>
    staysInFile_routine h step (by simp [hsteps, hstep])
  obtain ⟨text, htext⟩ := Emit.exists_addsLines (by rw [hinside]) (hfields.seq hstmts)
    (by rwa [hinside])
    ((Emit.keeps_forM fun f _ => keeps_fieldSetup f).bind fun _ => keeps_statements _) (level + 1)
  exact ⟨text, htext.braced⟩

end Context

namespace CFamily

variable {p : Program} {d : Dialect} {id : ClassId} {c : ClassDef} {r : Routine}

theorem exists_trimmed_append (front : String) {back : String} (h : trimmed back = back) :
    ∃ ahead, trimmed (front ++ back) = ahead ++ back := by
  unfold trimmed at h ⊢
  rw [String.toList_append, List.dropWhile_append]
  split_ifs
  · exact ⟨"", by rw [h, String.empty_append]⟩
  · exact ⟨String.ofList (front.toList.dropWhile (· = '\n')), String.toList_inj.mp (by simp)⟩

/-- The item that a function is printed as. -/
def Item.routine (id : ClassId) (c : ClassDef) : Routine → Item
  | .method m => .method id c m
  | .constructor => .constructor id c

theorem mem_items_routine (hid : id ∈ p.globalClassIds) (hc : p.classOf id = .ok c)
    (hr : r.IsOf c) : Item.routine id c r ∈ items ⟨p, .cFamily d, none⟩ d := by
  refine List.mem_append_right _ (List.mem_flatMap.mpr
    ⟨(id, c), Program.mem_resolved.mpr ⟨hid, hc⟩, ?_⟩)
  cases r with
  | method m => exact List.mem_append_right _ (List.mem_map_of_mem hr)
  | constructor =>
      have hconstructs : p.constructs id = true := by
        rw [Program.constructs, Program.needsConstruction_of_constructor hc hr]
        rfl
      simp [hconstructs, Item.routine]

/-- What is printed for a function is its body behind some lines. -/
theorem exists_introduction {cx : Context} (ht : cx.target = .cFamily d) {steps : List Step}
    (h : (Item.routine id c r).emission cx d = ⟨steps, .ok ()⟩) : ∃ introduction front,
      (Item.routine id c r).emission cx d = (do introduction; cx.routine c r) ∧
        introduction.AddsLines 0 front := by
  have hline : ∀ code, ∃ text, (Emit.line code).AddsLines 0 text := fun code =>
    Emit.exists_addsLines rfl (Emit.plays_line code)
      (by simp [Emit.line, Emit.ofSteps, Step.staysInFile]) (Emit.ends_line code).keeps 0
  cases r with
  | method m =>
      obtain ⟨_, h, -⟩ := Emit.ofSteps_bind_eq_ok.mp h
      obtain ⟨_, h, -⟩ := Emit.ofSteps_bind_eq_ok.mp h
      obtain ⟨code, hcode, -⟩ := Emit.liftM_bind_eq_ok.mp h
      obtain ⟨text, htext⟩ := hline code
      refine ⟨_, _, ?_,
        (Emit.addsLines_note (.method cx.target c.name m.name)).seq
          (Emit.addsLines_newline.seq htext)⟩
      change methodBody cx d c m = _
      rw [methodBody, hcode]
      simp only [bind_assoc]
      rfl
  | constructor =>
      obtain ⟨text, htext⟩ := hline (constructorSignature c)
      refine ⟨_, _, ?_, Emit.addsLines_newline.seq htext⟩
      simp only [bind_assoc]
      exact Context.constructorBody_eq ht

/-- In a C file that is written, the lines of a function's body stand as they are printed. -/
theorem exists_lines_of_routine {o : Options} {files : List OutputFile}
    (h : (generate (Target.cFamily d).name p o).files = .ok files) (hid : id ∈ p.globalClassIds)
    (hc : p.classOf id = .ok c) (hr : r.IsOf c) :
    let cx : Context := ⟨p, .cFamily d, none⟩
    ∃ contents steps, files = [⟨outputPath (.cFamily d) o.output, contents⟩] ∧
      cx.routine c r = ⟨steps, .ok ()⟩ ∧
      ∀ e : Emit Unit, e.IsLinesOf (cx.routine c r) →
        (∀ level, ∃ inside, e.AddsLines level inside) → ∃ level ahead inside behind,
          e.AddsLines level inside ∧ contents = ahead ++ inside ++ behind := by
  intro cx
  obtain ⟨contents, hfiles, -, hitems⟩ := exists_placed h
  obtain ⟨front, back, hsplit⟩ := List.append_of_mem (mem_items_routine hid hc hr (d := d))
  obtain ⟨-, hok, before, after, hcontents, -⟩ := hitems front _ back hsplit
  obtain ⟨introduction, opening, hemission, hopening⟩ :=
    exists_introduction (rfl : cx.target = .cFamily d) (congrArg (Emit.mk _) hok)
  have hroutine : (cx.routine c r).outcome = .ok () := by
    rw [hemission] at hok
    obtain ⟨⟨⟩, -, rest, -, hrest, -⟩ := Emit.bind_eq_ok.mp (congrArg (Emit.mk _) hok)
    rw [hrest]
  have hsteps : cx.routine c r = ⟨(cx.routine c r).steps, .ok ()⟩ := congrArg (Emit.mk _) hroutine
  obtain ⟨inside, hinside⟩ := Context.exists_addsLines_routine hsteps 0
  have hall := hopening.seq hinside
  rw [← hemission] at hall
  let body := Writer.margin 0 ++ "\x7b\n" ++ inside ++ Writer.margin 0 ++ "\x7d\n"
  have hbody : trimmed body = body :=
    String.toList_inj.mp (by simp [body, Writer.margin, trimmed])
  obtain ⟨ahead, htrimmed⟩ := exists_trimmed_append opening hbody
  refine ⟨contents, _, hfiles, hsteps, fun e hpart hlines => ?_⟩
  obtain ⟨level, first, lines, last, hadds, htext⟩ :=
    hpart.exists_text hinside (Context.staysInFile_routine hsteps) hlines
  have hitem : Item.text cx d (.routine id c r) = ahead ++ (first ++ lines ++ last) := by
    rw [Item.text, hall.text_eq, htrimmed, ← htext]
  refine ⟨level, before ++ (ahead ++ first), lines, last ++ after, hadds, ?_⟩
  rw [hcontents]
  change before ++ Item.text cx d _ ++ after = _
  simp [hitem, String.append_assoc]

end CFamily

end Emitter
