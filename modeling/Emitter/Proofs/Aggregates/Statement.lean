import Emitter.Proofs.Aggregates.Expression
import Emitter.Proofs.Statement.Locals

/-!
# Statements with empty arrays

Among the statements only the declaration of a local prints lengths. A reader of a statement comes
back to the place it started from, unless a local in it is an array that one of its lengths leaves
empty.
-/

namespace Emitter

open Layout Program

/-- One of the lengths that the type is declared with is zero. -/
def Program.Ty.hasZeroLength : Ty → Bool
  | .array element true (some length) => length = 0 || element.hasZeroLength
  | _ => false

/-- No class is called by a word that starts a statement. -/
def Program.HasTypeNames (p : Program) : Prop :=
  ∀ c ∈ p.classes, c.name ∉ Aggregates.leadingWords

namespace Aggregates

open CFamily

section Emissions

variable {α β : Type} {before middle after : List Place} {empty empty' : Bool} {e : Emit Unit}

/-- An emission that goes through prints code that leads from some places to others, or has an empty
aggregate in it. -/
def Leads (before after : List Place) (empty : Bool) (e : Emit α) : Prop :=
  ∀ steps a, e = ⟨steps, .ok a⟩ → Crosses before after empty (steps.flatMap Step.code)

theorem Leads.seq {next : Emit α} (h : Leads before middle empty e)
    (hnext : Leads middle after empty' next) :
    Leads before after (empty || empty') (do e; next) := by
  intro steps b hsteps
  obtain ⟨a, first, rest, hfirst, hrest, rfl⟩ := Emit.bind_eq_ok.mp hsteps
  rw [List.flatMap_append]
  exact (h first a hfirst).append (hnext rest b hrest)

/-- What prints no empty aggregate goes in front. -/
theorem Leads.behind {next : Emit α} (h : Leads before middle false e)
    (hnext : Leads middle after empty next) : Leads before after empty (do e; next) := h.seq hnext

/-- What prints no empty aggregate goes behind. -/
theorem Leads.followed {next : Emit α} (h : Leads before middle empty e)
    (hnext : Leads middle after false next) : Leads before after empty (do e; next) := by
  simpa using h.seq hnext

theorem Leads.mono {before' after' : List Place} {e : Emit α} (h : Leads before after empty e)
    (hbefore : before' ⊆ before) (hafter : after ⊆ after') : Leads before' after' empty e :=
  fun steps a hsteps => (h steps a hsteps).mono hbefore hafter

theorem leads_lift {r : Result α} {P : α → Prop} (h : Yields r P) {next : α → Emit β}
    (hnext : ∀ a, P a → Leads before after empty (next a)) :
    Leads before after empty (liftM r >>= next) := by
  intro steps b hsteps
  obtain ⟨a, ha, hsteps⟩ := Emit.liftM_bind_eq_ok.mp hsteps
  exact hnext a (h a ha) steps b hsteps

theorem leads_pure (h : before ⊆ after) (a : α) : Leads before after false (pure a : Emit α) := by
  intro steps b hsteps
  obtain ⟨-, rfl⟩ := Emit.pure_eq_ok.mp hsteps
  exact .nil h

theorem leads_refused (fault : Fault) :
    Leads before after empty (liftM (.error fault : Result α) : Emit α) := fun _ _ h => by
  simp [Emit.liftM_eq_ok] at h

theorem leads_steps {given : List Step}
    (h : Crosses before after empty (given.flatMap Step.code)) :
    Leads before after empty (Emit.ofSteps given) := fun steps _ hs => by
  obtain rfl := Emit.ofSteps_eq_ok.mp hs
  exact h

theorem leads_put {code : Code} (h : Crosses before after empty code) :
    Leads before after empty (Emit.put code) := leads_steps (by simpa [Step.code] using h)

theorem leads_line {code : Code} (h : Crosses before after empty code) :
    Leads before after empty (Emit.line code) := leads_steps (by simpa [Step.code] using h)

theorem leads_newline (places : List Place) : Leads places places false Emit.newline :=
  leads_steps (.nil (List.Subset.refl _))

theorem leads_note (places : List Place) (notice : Notice) :
    Leads places places false (Emit.note notice) := leads_steps (.nil (List.Subset.refl _))

theorem leads_lines (places : List Place) (text : String) :
    Leads places places false (Emit.lines text) := leads_steps (.nil (List.Subset.refl _))

theorem Leads.deeper (h : Leads before after empty e) : Leads before after empty e.deeper := by
  intro steps a hsteps
  obtain ⟨inner, he, rfl⟩ := Emit.deeper_eq_ok.mp hsteps
  simpa [Step.code] using h inner () he

theorem Leads.indented (h : Leads before after empty e) : Leads before after empty e.indented := by
  intro steps a hsteps
  obtain ⟨inner, he, rfl⟩ := Emit.indented_eq_ok.mp hsteps
  simpa [Step.code] using h inner () he

/-- The emission leads from plain code to plain code. -/
abbrev IsPlain (empty : Bool) (e : Emit Unit) : Prop := Leads [.plain] [.plain] empty e

theorem IsPlain.braced (h : IsPlain empty e) : IsPlain empty e.braced := by
  intro steps a hsteps
  obtain ⟨inner, he, rfl⟩ := Emit.braced_eq_ok.mp hsteps
  have hopen : Crosses [.plain] [.plain] false [.symbol "\x7b"] := by decide
  have hclose : Crosses [.plain] [.plain] false [.symbol "\x7d"] := by decide
  simpa [Step.code] using (hopen.behind (h inner () he)).followed hclose

/-- One emission after the other, of which there is at least one. -/
theorem leads_forM_cons {f : α → Emit Unit} {item : α} {items : List α} {empties : α → Bool}
    (hplaces : after ⊆ before)
    (h : ∀ x ∈ item :: items, Leads before after (empties x) (f x)) :
    Leads before after ((item :: items).any empties) ((item :: items).forM f) := by
  induction items generalizing item with
  | nil =>
      have hone := (h item (by simp)).followed (leads_pure (List.Subset.refl after) ())
      simpa using hone
  | cons next rest ih =>
      obtain ⟨hitem, hrest⟩ := List.forall_mem_cons.mp h
      exact hitem.seq ((ih hrest).mono hplaces (List.Subset.refl after))

/-- Emissions one after the other. -/
theorem leads_forM {f : α → Emit Unit} {items : List α} {empties : α → Bool}
    (h : ∀ x ∈ items, Leads before before (empties x) (f x)) :
    Leads before before (items.any empties) (items.forM f) := by
  cases items with
  | nil => exact leads_pure (List.Subset.refl _) ()
  | cons item items => exact leads_forM_cons (List.Subset.refl _) h

end Emissions

section Declarations

variable {cx : Context} {d : Dialect}

/-- Where a type may start. -/
def fresh : List Place := [.plain, .list, .opened, .word, .name]

/-- Where a type may end. -/
def typed : List Place := [.word, .name, .star]

/-- A type may be printed by the code. A star at its end has the name right behind it. -/
def IsType (code : Code) : Prop :=
  Crosses fresh [.word, .name] false code ∨
    code.endsInStar = true ∧ Crosses fresh [.star] false code

theorem crosses_name (l : Lexeme) {w : String} (hl : l = .word w ∨ ∃ s, l = .supplied w s)
    (hw : w ∉ leadingWords) : Crosses fresh [.word, .name] false [l] ∧
      Crosses typed [.name] false [l] := by
  have hread : ∀ p : Place, p.read [l] =
      some (if p ∈ [Place.word, .star, .name] then .name else .word) := by
    intro p
    rcases hl with rfl | ⟨s, rfl⟩ <;> simp [Place.next, hw]
  refine ⟨fun p _ => ⟨_, ?_, hread p⟩, fun p hp => ⟨_, ?_, hread p⟩⟩
  · split_ifs <;> simp
  · revert hp
    cases p <;> decide

theorem isType_word {w : String} (hw : w ∉ leadingWords) : IsType [.word w] :=
  .inl (crosses_name _ (.inl rfl) hw).1

theorem endsInStar_append (code : Code) : Code.endsInStar (code ++ [Lexeme.symbol "*"]) = true := by
  have hlast : (code ++ [Lexeme.symbol "*"]).text.toList = code.text.toList ++ ['*'] := by
    simp [Code.text, Lexeme.text]
  rw [Code.endsInStar, hlast, List.getLast?_concat]
  rfl

/-- A star behind a type, whatever the type ends in. -/
theorem IsType.pointerTo {type : Code} (h : IsType type) : IsType (pointerTo type) := by
  have hstar : Crosses [.word, .name, .star] [.star] false [.symbol "*"] := by decide
  have hgap : Crosses [.word, .name] [.word, .name, .star] false [.gap] := by decide
  have hends := endsInStar_append
  unfold CFamily.pointerTo
  rcases h with h | ⟨hstar', h⟩
  · split_ifs
    · exact .inr ⟨hends type, (h.mono (List.Subset.refl _) (by decide)).behind hstar⟩
    · have hpointer : type ++ [Lexeme.gap, .symbol "*"] =
          (type ++ [Lexeme.gap]) ++ [Lexeme.symbol "*"] := by simp
      rw [hpointer]
      exact .inr ⟨hends _, (h.behind hgap).behind hstar⟩
  · rw [if_pos hstar']
    exact .inr ⟨hends type, (h.mono (List.Subset.refl _) (by decide)).behind hstar⟩

theorem IsType.beforeName {type : Code} (h : IsType type) :
    Crosses fresh typed false (beforeName type) := by
  have hgap : Crosses [.word, .name] [.word, .name] false [.gap] := by decide
  have htyped : [Place.word, .name] ⊆ typed := by decide
  unfold CFamily.beforeName
  rcases h with h | ⟨hends, h⟩
  · split_ifs
    · exact h.mono (List.Subset.refl _) htyped
    · exact (h.behind hgap).mono (List.Subset.refl _) htyped
  · rw [if_pos hends]
    exact h.mono (List.Subset.refl _) (by decide)

theorem isType_typeCode (hp : cx.program.HasTypeNames) (ty : Ty) :
    Yields (typeCode cx d ty) IsType := by
  induction ty with
  | null => exact yields_error _
  | int kind => exact yields_pure (Or.inl (by cases d <;> cases kind <;> decide))
  | float kind => cases kind <;> exact yields_pure (Or.inl (by decide))
  | string => exact yields_pure (Or.inr (by cases d <;> exact ⟨by decide, by decide⟩))
  | classStorage id =>
      exact yields_bind fun c hc =>
        yields_pure (isType_word (hp c (Context.mem_classes_of_classOf hc)))
  | classRef id =>
      refine yields_bind fun c hc => yields_pure (Or.inr ⟨?_, ?_⟩)
      · exact endsInStar_append [.word c.name, .gap]
      · have hname := (crosses_name (.word c.name) (.inl rfl)
          (hp c (Context.mem_classes_of_classOf hc))).1
        exact hname.behind (by decide)
  | array element storage length ih =>
      exact ih.bind fun type htype => yields_pure htype.pointerTo
  | _ => exact yields_pure (Or.inl (by decide))

/-- A length behind a name. -/
theorem crosses_length (n : ℕ) : Crosses [.name] [.name] (decide (n = 0))
    [.symbol "[", .number (toString n), .symbol "]"] := by
  refine List.forall_mem_singleton.mpr ?_
  by_cases hn : n = 0
  · subst hn
    rfl
  · have hrepr : Nat.repr 0 = "0" := rfl
    have hzero : n.repr ≠ "0" := fun h => hn (Nat.repr_injective (h.trans hrepr.symm))
    simp [Place.next, Place.symbol, hn, hzero]

theorem crosses_lengths (lengths : List UInt32) :
    Crosses [.name] [.name] (lengths.any (· = 0)) (lengths.flatMap fun n =>
      [.symbol "[", .number (toString n.toNat), .symbol "]"]) := by
  induction lengths with
  | nil => exact .nil (List.Subset.refl _)
  | cons n rest ih =>
      have hn : decide (n.toNat = 0) = decide (n = 0) :=
        decide_eq_decide.mpr ⟨fun h => UInt32.toNat_inj.mp h, fun h => h ▸ rfl⟩
      have hlength := crosses_length n.toNat
      rw [hn] at hlength
      rw [List.flatMap_cons, List.any_cons]
      exact hlength.append ih

theorem any_lengths {ty : Ty} {lengths : List UInt32} {base : Ty}
    (h : dimensions cx ty = .ok (lengths, base)) :
    lengths.any (· = 0) = ty.hasZeroLength := by
  induction ty generalizing lengths with
  | array element storage length ih =>
      cases storage with
      | false =>
          obtain ⟨rfl, -⟩ := Prod.mk.inj (Except.ok.inj h)
          rfl
      | true =>
          cases length with
          | none => simp [dimensions, Context.unsupported] at h
          | some n =>
              obtain ⟨⟨rest, base'⟩, hrest, h⟩ := Result.bind_eq_ok.mp h
              obtain ⟨rfl, rfl⟩ := Prod.mk.inj (Except.ok.inj h)
              rw [List.any_cons, ih hrest, Ty.hasZeroLength]
  | _ =>
      obtain ⟨rfl, -⟩ := Prod.mk.inj (Except.ok.inj h)
      rfl

theorem notMem_localName (ht : cx.target = .cFamily d) (name : String) :
    cx.target.localName name ∉ leadingWords := by
  have hsub : leadingWords ⊆ (Target.cFamily d).keywords.words := by
    cases d <;> decide
  rw [ht]
  exact fun hmem => Target.localName_notMem_keywords _ name (hsub hmem)

/-- A declaration leads to the place behind its name and lengths. -/
theorem crosses_declaration (ht : cx.target = .cFamily d) (hp : cx.program.HasTypeNames) (ty : Ty)
    (name : String) : Yields (declaration cx d ty (cx.localWord name))
      (Crosses fresh [.name] ty.hasZeroLength) := by
  refine yields_bind fun (lengths, base) hlengths => (isType_typeCode hp base).bind
    fun type htype => yields_pure ?_
  have hname := (crosses_name (cx.localWord name) (.inl rfl) (notMem_localName ht name)).2
  rw [← any_lengths hlengths]
  exact htype.beforeName.behind (hname.behind (crosses_lengths lengths))

end Declarations

section Construction

variable {cx : Context} {d : Dialect}

/-- Where a simple statement may end, before its semicolon. -/
def simpleEnds : List Place := [.plain, .name, .list, .word]

theorem isPlain_line_of_quiet {code : Code} (h : Quiet code) :
    IsPlain false (Emit.line (code ++ [Lexeme.symbol ";"])) := by
  have hend : Crosses done [.plain] false [.symbol ";"] := by decide
  exact leads_line ((h.behind hend).mono subset_calm (List.Subset.refl _))

theorem isPlain_countingLoop (depth : Nat) (length : UInt32) :
    IsPlain false (Emit.line (countingLoop (counter depth) length)) := by
  refine leads_line (List.forall_mem_singleton.mpr ⟨.plain, by simp, ?_⟩)
  simp [countingLoop, counter, Place.next, Place.symbol]

theorem isPlain_constructCalls (depth : Nat) {place : Code} (hplace : Quiet place) (ty : Ty) :
    IsPlain false (constructCalls cx depth place ty) := by
  induction ty generalizing depth place with
  | classStorage id =>
      refine leads_lift (fun _ h => h) fun constructed _ => ?_
      split_ifs
      · refine leads_lift (fun _ h => h) fun c _ => ?_
        have haddress : Crosses calm calm false [.symbol "&"] := by decide
        have hargs : Crosses done done false (Code.parenthesized (.symbol "&" :: place)) :=
          Quiet.parenthesized (hplace.after haddress) (by decide)
        exact isPlain_line_of_quiet (quiet_call (quiet_word _) hargs)
      · exact leads_pure (List.Subset.refl _) ()
  | array element storage length ih =>
      cases storage with
      | false => exact leads_pure (List.Subset.refl _) ()
      | true =>
          refine leads_lift (fun _ h => h) fun constructed _ => ?_
          split_ifs
          · cases length with
            | none => exact leads_refused _
            | some n =>
                have hopen : Crosses done calm false [.symbol "["] := by decide
                have hclose : Crosses done done false [.symbol "]"] := by decide
                have hindex : Quiet (place ++ [.symbol "[", counter depth, .symbol "]"]) :=
                  hplace.continued (hopen.behind ((quiet_word _).continued hclose))
                exact (isPlain_countingLoop depth n).behind (ih (depth + 1) hindex).indented
          · exact leads_pure (List.Subset.refl _) ()
  | _ => exact leads_pure (List.Subset.refl _) ()

/-- The declaration of a local, up to its semicolon. -/
theorem leads_declareLocal (ht : cx.target = .cFamily d) (hp : cx.program.HasTypeNames)
    (decl : VarDecl) :
    Leads [.plain] simpleEnds decl.ty.hasZeroLength (declareLocal cx d decl) := by
  have hends : [Place.name] ⊆ simpleEnds := by decide
  have hdone : done ⊆ simpleEnds := by decide
  have hzeros : Crosses [.name] simpleEnds false (Code.operator "=" ++
      [Lexeme.symbol "\x7b", Lexeme.gap, Lexeme.number "0", Lexeme.gap, Lexeme.symbol "\x7d"]) := by
    decide
  refine leads_lift (crosses_declaration ht hp decl.ty decl.name) fun type htype => ?_
  have htype : Leads [.plain] [.name] decl.ty.hasZeroLength (Emit.put type) :=
    (leads_put htype).mono (by decide) (List.Subset.refl _)
  split_ifs
  · exact htype.followed ((leads_note _ _).behind (leads_put hzeros))
  · exact htype.followed (leads_put hzeros)
  · cases decl.value with
    | none =>
        have hnone : Leads [.name] simpleEnds false (pure () : Emit Unit) := leads_pure hends ()
        exact htype.followed hnone
    | some e =>
        refine htype.followed (leads_lift (quiet_code ht e) fun code hcode => leads_put ?_)
        have hequals : Crosses [.name] calm false (Code.operator "=") := by decide
        exact (hequals.behind hcode).mono (List.Subset.refl _) hdone

end Construction

section Statements

variable {cx : Context} {d : Dialect}

theorem quiet_assign (ht : cx.target = .cFamily d) (target : Expr) (op : AssignOp) (value : Expr) :
    Yields (cx.assign target op value) Quiet := by
  have hop : Crosses done calm false (Code.operator op.text) := by cases op <;> decide
  unfold Context.assign
  rw [ht]
  exact (quiet_code ht target).bind fun _ hfirst => (quiet_code ht value).bind fun _ hsecond =>
    yields_pure (hfirst.infixed hsecond hop)

theorem leads_simple (ht : cx.target = .cFamily d) (hp : cx.program.HasTypeNames) (s : Stmt) :
    Leads [.plain] simpleEnds (s.ownLocals.any (·.ty.hasZeroLength)) (cx.simple s) := by
  have hquiet : ∀ {code : Code}, Quiet code → Leads [.plain] simpleEnds false (Emit.put code) :=
    fun h => leads_put (h.mono subset_calm (by decide))
  cases s with
  | eval e => exact leads_lift (quiet_code ht e) fun _ => hquiet
  | declare decl =>
      change Leads _ _ ([decl].any _) (cx.declareLocal decl)
      unfold Context.declareLocal
      rw [ht, List.any_cons, List.any_nil, Bool.or_false]
      exact leads_declareLocal ht hp decl
  | assign target op value => exact leads_lift (quiet_assign ht target op value) fun _ => hquiet
  | _ => exact leads_refused _

/-- The local of a clause is the only one in it. -/
theorem leads_clause (ht : cx.target = .cFamily d) (hp : cx.program.HasTypeNames) (s : Stmt) :
    Leads [.plain] simpleEnds (s.locals.any (·.ty.hasZeroLength)) (cx.simple s) := by
  intro steps a h
  rw [Stmt.locals_eq, Context.children_eq_nil_of_simple h, List.flatMap_nil, List.append_nil]
  exact leads_simple ht hp s steps a h

theorem isPlain_simpleLine (ht : cx.target = .cFamily d) (hp : cx.program.HasTypeNames)
    (s : Stmt) : IsPlain (s.ownLocals.any (·.ty.hasZeroLength)) (cx.simpleLine s) := by
  have hend : Leads simpleEnds [.plain] false (Emit.line [.symbol ";"]) := leads_line (by decide)
  have hafter : IsPlain false (cx.afterSimple s) := by
    unfold Context.afterSimple
    split
    · exact isPlain_constructCalls 0 (quiet_word _) _
    · exact leads_pure (List.Subset.refl _) ()
  exact (leads_simple ht hp s).followed (hend.behind hafter)

theorem isPlain_head (ht : cx.target = .cFamily d) (keyword : String) (cond : Expr) :
    IsPlain false (cx.head keyword cond) := by
  have hopen : Crosses [.plain] calm false [.word keyword, .gap, .symbol "("] := by
    refine List.forall_mem_singleton.mpr ⟨.plain, by decide, ?_⟩
    by_cases hkeyword : keyword ∈ leadingWords <;>
      simp [Place.next, Place.symbol, hkeyword]
  have hclose : Crosses done [.plain] false [.symbol ")"] := by decide
  exact leads_lift (quiet_code ht cond) fun _ hcode =>
    leads_put (hopen.behind (hcode.behind hclose))

theorem isPlain_nested {s : Stmt} {printed : Emit Unit} {empty : Bool} (h : IsPlain empty printed) :
    IsPlain empty (Context.nested s printed) := by
  unfold Context.nested
  split
  · exact (leads_put (by decide)).behind h
  · exact (leads_newline _).behind h.indented

theorem isPlain_alternative {s : Stmt} {printed : Emit Unit} {empty : Bool}
    (h : IsPlain empty printed) : IsPlain empty (Context.alternative s printed) := by
  have helse : IsPlain false (Emit.put [.word "else"]) := leads_put (by decide)
  refine helse.behind ?_
  split
  · exact (leads_put (by decide)).behind h
  · exact isPlain_nested h

theorem isPlain_loopHead (ht : cx.target = .cFamily d) (hp : cx.program.HasTypeNames)
    (start advance : Option Stmt) (cond : Option Expr) :
    IsPlain (((start.toList ++ advance.toList).flatMap Stmt.locals).any (·.ty.hasZeroLength))
      (cx.loopHead start cond advance) := by
  have hsub : [Place.plain] ⊆ simpleEnds := by decide
  have hstart : Leads [.plain] simpleEnds
      ((start.toList.flatMap Stmt.locals).any (·.ty.hasZeroLength)) (cx.startClause start) := by
    cases start with
    | none => exact leads_pure hsub ()
    | some s =>
        simp only [Context.startClause, Context.loopStart, ht, Option.toList_some,
          List.flatMap_singleton]
        exact leads_lift (fun _ h => h) fun _ _ => leads_clause ht hp s
  have hcond : Leads [.plain] simpleEnds false (cx.condClause cond) := by
    cases cond with
    | none => exact leads_pure hsub ()
    | some e =>
        have hgap : Crosses [.plain] calm false [.gap] := by decide
        exact leads_lift (quiet_code ht e) fun _ hcode =>
          leads_put ((hgap.behind hcode).mono (List.Subset.refl _) (by decide))
  have hadvance : Leads [.plain] simpleEnds
      ((advance.toList.flatMap Stmt.locals).any (·.ty.hasZeroLength))
      (cx.advanceClause advance) := by
    cases advance with
    | none => exact leads_pure hsub ()
    | some s =>
        have hgap : IsPlain false (Emit.put [.gap]) := leads_put (by decide)
        simpa [Context.advanceClause] using hgap.behind (leads_clause ht hp s)
  have hopen : IsPlain false (Emit.put [.word "for", .gap, .symbol "("]) := leads_put (by decide)
  have hsemicolon : Leads simpleEnds [.plain] false (Emit.put [.symbol ";"]) :=
    leads_put (by decide)
  have hclose : Leads simpleEnds [.plain] false (Emit.put [.symbol ")"]) := leads_put (by decide)
  rw [Context.loopHead_eq, List.flatMap_append, List.any_append]
  exact hopen.behind (hstart.seq (hsemicolon.behind (hcond.behind (hsemicolon.behind
    (hadvance.followed hclose)))))

theorem isPlain_statements {stmts : List Stmt}
    (h : ∀ s ∈ stmts, IsPlain (s.locals.any (·.ty.hasZeroLength)) (cx.statement s)) :
    IsPlain ((stmts.flatMap Stmt.locals).any (·.ty.hasZeroLength)) (cx.statements stmts) := by
  induction stmts with
  | nil => exact leads_pure (List.Subset.refl _) ()
  | cons s rest ih =>
      obtain ⟨hs, hrest⟩ := List.forall_mem_cons.mp h
      rw [Context.statements, List.flatMap_cons, List.any_append]
      exact hs.seq (ih hrest)

/-- A printed statement has an empty array in it exactly if one of its locals is declared so. -/
theorem isPlain_statement (ht : cx.target = .cFamily d) (hp : cx.program.HasTypeNames) (s : Stmt) :
    IsPlain (s.locals.any (·.ty.hasZeroLength)) (cx.statement s) := by
  induction s using Stmt.inductOn with
  | h s ih =>
  have hchildren : s.ownLocals = [] → s.locals = s.children.flatMap Stmt.locals := fun hown => by
    rw [Stmt.locals_eq, hown, List.nil_append]
  cases s with
  | block stmts =>
      rw [Context.statement, hchildren rfl]
      exact (isPlain_statements ih).braced
  | eval e | assign target op value =>
      rw [Context.statement]
      exact isPlain_simpleLine ht hp _
  | declare decl =>
      rw [Context.statement]
      exact isPlain_simpleLine ht hp _
  | branch cond onTrue onFalse =>
      rw [hchildren rfl]
      have htrue := ih onTrue (by simp [Stmt.children])
      cases onFalse with
      | none =>
          rw [Context.statement]
          simpa [Stmt.children] using (isPlain_head ht "if" cond).behind (isPlain_nested htrue)
      | some onFalse =>
          rw [Context.statement]
          have hfalse := ih onFalse (by simp [Stmt.children])
          simpa [Stmt.children] using (isPlain_head ht "if" cond).behind
            ((isPlain_nested htrue).seq (isPlain_alternative hfalse))
  | whileLoop cond body =>
      rw [Context.statement, hchildren rfl]
      simpa [Stmt.children] using (isPlain_head ht "while" cond).behind
        (isPlain_nested (ih body (by simp [Stmt.children])))
  | doLoop body cond =>
      rw [Context.statement, hchildren rfl]
      have hbody := isPlain_nested (s := body) (ih body (by simp [Stmt.children]))
      have hdo : IsPlain false (Emit.put [.word "do"]) := leads_put (by decide)
      have hend : IsPlain false (Emit.line [.symbol ";"]) := leads_line (by decide)
      simpa [Stmt.children] using
        hdo.behind (hbody.followed ((isPlain_head ht "while" cond).behind hend))
  | forLoop start cond advance body =>
      rw [Context.statement, hchildren rfl]
      have hbody := isPlain_nested (s := body) (ih body (by simp [Stmt.children]))
      simpa [Stmt.children, Bool.or_assoc] using
        (isPlain_loopHead ht hp start advance cond).seq hbody
  | breakLoop | continueLoop =>
      rw [Context.statement]
      exact leads_line (by decide)
  | returnValue value =>
      rw [Context.statement]
      cases value with
      | none => exact leads_line (by decide)
      | some e =>
          have hfront : Crosses [.plain] calm false [.word "return", .gap] := by decide
          have hend : Crosses done [.plain] false [.symbol ";"] := by decide
          exact leads_lift (quiet_code ht e) fun _ hcode =>
            leads_line ((hfront.behind hcode).behind hend)
  | «throwError» message =>
      rw [Context.statement, Context.thrown, ht]
      exact leads_refused _
  | native text =>
      rw [Context.statement]
      exact leads_lines _ text

theorem isPlain_body (ht : cx.target = .cFamily d) (hp : cx.program.HasTypeNames) (stmts : Block) :
    IsPlain ((stmts.flatMap Stmt.locals).any (·.ty.hasZeroLength)) (cx.body stmts) :=
  (isPlain_statements fun s _ => isPlain_statement ht hp s).braced

end Statements

end Aggregates

end Emitter
