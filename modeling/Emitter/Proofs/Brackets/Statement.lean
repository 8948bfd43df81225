import Emitter.Proofs.Brackets.Expression
import Emitter.Proofs.Names.Statement
import Emitter.Proofs.Whole.Lines

/-!
# Brackets in printed statements

What an emission prints opens and closes brackets step by step. Between two steps a reader is
outside all literals, so that line ends and margins change nothing for it. A statement closes what
it opens.
-/

namespace Emitter

open Brackets Layout Number Program Text

namespace Step

/-- The brackets to be closed behind a step. Every line of a text has to end outside literals. -/
def nest (awaited : List Char) : Step → Option (List Char)
  | .put code => code.nest awaited
  | .lines text => (linesOf text).foldlM Brackets.nest awaited
  | _ => some awaited

/-- The brackets to be closed behind some steps. -/
def nestAll (awaited : List Char) (steps : List Step) : Option (List Char) :=
  steps.foldlM nest awaited

variable {awaited : List Char} {first rest : List Step}

@[simp] theorem nestAll_nil : nestAll awaited [] = some awaited := rfl

theorem nestAll_cons {step : Step} :
    nestAll awaited (step :: rest) = (step.nest awaited).bind (nestAll · rest) := rfl

theorem nestAll_append :
    nestAll awaited (first ++ rest) = (nestAll awaited first).bind (nestAll · rest) := by
  simp [nestAll, List.foldlM_append]

end Step

namespace Layout.Writer

variable {w : Writer} {r : Reader} {awaited after : List Char} {text : String}

theorem neutral_margin (levels : Nat) : Neutral (margin levels) := by
  refine Unmarked.neutral fun c hc => ?_
  rw [margin, String.toList_ofList] at hc
  rw [List.eq_of_mem_replicate hc]
  decide

theorem read_write (hw : r.read w.out = some (awaiting awaited))
    (h : Brackets.nest awaited text = some after) :
    r.read (w.write text).out = some (awaiting after) := by
  have htext := nest_eq_some.mp h
  unfold write
  split_ifs with hempty
  · subst hempty
    obtain rfl : awaited = after := by simpa using htext
    exact hw
  · simp [Reader.read_append, hw, neutral_margin w.indent awaited, htext]
  · simp [Reader.read_append, hw, htext]

theorem read_newline (hw : r.read w.out = some (awaiting awaited)) :
    r.read w.newline.out = some (awaiting awaited) := by
  have hend : Neutral "\n" := Unmarked.neutral (by decide)
  simp [newline, Reader.read_append, hw, hend awaited]

theorem read_writeCode {code : Code} (hw : r.read w.out = some (awaiting awaited))
    (h : code.nest awaited = some after) :
    r.read (code.foldl (fun w l => w.write l.text) w).out = some (awaiting after) := by
  induction code generalizing w awaited with
  | nil =>
      obtain rfl := Option.some.inj h
      exact hw
  | cons l code ih =>
      obtain ⟨middle, hl, hcode⟩ := Option.bind_eq_some_iff.mp h
      exact ih (read_write hw hl) hcode

theorem read_writeLines (hw : r.read w.out = some (awaiting awaited))
    (h : (linesOf text).foldlM Brackets.nest awaited = some after) :
    r.read (w.writeLines text).out = some (awaiting after) := by
  unfold writeLines
  generalize linesOf text = lines at h
  induction lines generalizing w awaited with
  | nil =>
      obtain rfl := Option.some.inj h
      exact hw
  | cons line lines ih =>
      obtain ⟨middle, hline, hlines⟩ := Option.bind_eq_some_iff.mp h
      exact ih (read_newline (read_write hw hline)) hlines

end Layout.Writer

/-- Taking steps in one file, a reader of it comes by the brackets that the steps open and close. -/
theorem Desk.read_of_play {steps : List Step} {d d' : Desk} {r : Reader} {awaited after : List Char}
    (hstay : ∀ step ∈ steps, step.staysInFile = true) (h : d.play? steps = some d')
    (hnest : Step.nestAll awaited steps = some after)
    (hd : r.read d.writer.out = some (awaiting awaited)) :
    r.read d'.writer.out = some (awaiting after) := by
  induction steps generalizing d awaited with
  | nil =>
      obtain rfl : d = d' := by simpa [play?] using h
      obtain rfl := Option.some.inj hnest
      exact hd
  | cons step rest ih =>
      obtain ⟨hstep, hrest⟩ := List.forall_mem_cons.mp hstay
      obtain ⟨mid, hmid, h⟩ : ∃ mid, d.step? step = some mid ∧ mid.play? rest = some d' := by
        simpa [play?, List.foldlM_cons, Option.bind_eq_some_iff] using h
      obtain ⟨middle, hmiddle, hnest⟩ := Option.bind_eq_some_iff.mp hnest
      refine ih hrest h hnest ?_
      cases step with
      | put code =>
          obtain rfl := Option.some.inj hmid
          exact Writer.read_writeCode hd hmiddle
      | lines text =>
          obtain rfl := Option.some.inj hmid
          exact Writer.read_writeLines hd hmiddle
      | newline =>
          obtain rfl := Option.some.inj hmid
          obtain rfl := Option.some.inj hmiddle
          exact Writer.read_newline hd
      | indent | note =>
          obtain rfl := Option.some.inj hmid
          obtain rfl := Option.some.inj hmiddle
          exact hd
      | dedent =>
          obtain ⟨w, hw, rfl⟩ := Option.map_eq_some_iff.mp hmid
          obtain rfl := Option.some.inj hmiddle
          unfold Writer.dedent? at hw
          split_ifs at hw
          obtain rfl := Option.some.inj hw
          exact hd
      | _ => simp [Step.staysInFile] at hstep

namespace Emit

variable {α β : Type} {e : Emit Unit} {before middle after : List Char}

/-- An emission that goes through takes a reader from the one brackets to be closed to the
others. -/
def Takes (e : Emit α) (before after : List Char) : Prop :=
  ∀ steps a, e = ⟨steps, .ok a⟩ → Step.nestAll before steps = some after

/-- An emission that goes through closes the brackets it opens and no others. -/
def IsNested (e : Emit α) : Prop := ∀ awaited, e.Takes awaited awaited

theorem Takes.bind {e : Emit α} {next : α → Emit β} (h : e.Takes before middle)
    (hnext : ∀ a, (next a).Takes middle after) : (e >>= next).Takes before after := by
  intro steps b hsteps
  obtain ⟨a, first, rest, hfirst, hrest, rfl⟩ := bind_eq_ok.mp hsteps
  rw [Step.nestAll_append, h first a hfirst, Option.bind_some]
  exact hnext a rest b hrest

theorem IsNested.bind {e : Emit α} {next : α → Emit β} (h : e.IsNested)
    (hnext : ∀ a, (next a).IsNested) : (e >>= next).IsNested := fun awaited =>
  (h awaited).bind fun a => hnext a awaited

theorem IsNested.seq {next : Emit α} (h : e.IsNested) (hnext : next.IsNested) :
    (do e; next).IsNested := h.bind fun _ => hnext

theorem isNested_lift {r : Result α} {P : α → Prop} (h : Yields r P) {next : α → Emit β}
    (hnext : ∀ a, P a → (next a).IsNested) : (liftM r >>= next).IsNested := by
  intro awaited steps b hsteps
  obtain ⟨a, ha, hnextsteps⟩ := liftM_bind_eq_ok.mp hsteps
  exact hnext a (h a ha) awaited steps b hnextsteps

theorem isNested_pure (a : α) : (pure a : Emit α).IsNested := fun awaited steps b h => by
  obtain ⟨-, rfl⟩ := pure_eq_ok.mp h
  rfl

theorem isNested_refused (fault : Fault) : (liftM (.error fault : Result α) : Emit α).IsNested :=
  fun _ _ _ h => by simp [liftM_eq_ok] at h

theorem takes_steps {given : List Step} (h : Step.nestAll before given = some after) :
    (ofSteps given).Takes before after := fun steps _ hs => by
  obtain rfl := ofSteps_eq_ok.mp hs
  exact h

theorem takes_put {code : Code} (h : code.nest before = some after) :
    (put code).Takes before after := takes_steps (by simp [Step.nestAll_cons, Step.nest, h])

theorem takes_line {code : Code} (h : code.nest before = some after) :
    (line code).Takes before after := takes_steps (by simp [Step.nestAll_cons, Step.nest, h])

theorem isNested_put {code : Code} (h : code.Nested) : (put code).IsNested := fun awaited =>
  takes_put (h awaited)

theorem isNested_line {code : Code} (h : code.Nested) : (line code).IsNested := fun awaited =>
  takes_line (h awaited)

theorem isNested_newline : newline.IsNested := fun _ => takes_steps rfl

theorem isNested_note (notice : Notice) : (note notice).IsNested := fun _ => takes_steps rfl

theorem takes_lines {text : String} (h : (linesOf text).foldlM Brackets.nest before = some after) :
    (lines text).Takes before after := takes_steps (by simp [Step.nestAll_cons, Step.nest, h])

/-- Lines that close the brackets they open do so inside any brackets. -/
theorem isNested_lines {text : String} (h : (linesOf text).foldlM Brackets.nest [] = some []) :
    (lines text).IsNested := by
  have hwithin : ∀ {lines : List String} {before after : List Char},
      lines.foldlM Brackets.nest before = some after →
        ∀ outer, lines.foldlM Brackets.nest (before ++ outer) = some (after ++ outer) := by
    intro lines before after h outer
    induction lines generalizing before with
    | nil =>
        obtain rfl := Option.some.inj h
        rfl
    | cons line rest ih =>
        obtain ⟨middle, hline, hrest⟩ := Option.bind_eq_some_iff.mp h
        exact Option.bind_eq_some_iff.mpr ⟨_, nest_within hline outer, ih hrest⟩
  exact fun awaited => takes_lines (hwithin h awaited)

/-- Steps around an emission that print nothing. -/
theorem Takes.between {e' : Emit Unit} {last : List Step} {start : List Char}
    (h : e.Takes middle after) (first : List Step)
    (he' : ∀ steps, e' = ⟨steps, .ok ()⟩ → ∃ inner, e = ⟨inner, .ok ()⟩ ∧
      steps = first ++ (inner ++ last)) (hfirst : Step.nestAll before first = some middle)
    (hlast : Step.nestAll after last = some start) : e'.Takes before start := by
  intro steps a hsteps
  obtain ⟨inner, he, rfl⟩ := he' steps hsteps
  rw [Step.nestAll_append, hfirst, Option.bind_some, Step.nestAll_append, h inner () he,
    Option.bind_some, hlast]

theorem IsNested.indented (h : e.IsNested) : e.indented.IsNested := fun awaited =>
  (h awaited).between [.indent] (fun _ => indented_eq_ok.mp) rfl rfl

theorem Takes.deeper (h : e.Takes before after) : e.deeper.Takes before after :=
  h.between [.indent] (fun _ => deeper_eq_ok.mp) rfl rfl

theorem IsNested.braced (h : e.IsNested) : e.braced.IsNested := fun awaited =>
  (h ('\x7d' :: awaited)).between [.put [.symbol "\x7b"], .newline, .indent]
    (fun _ => braced_eq_ok.mp) rfl rfl

theorem isNested_forM {f : α → Emit Unit} {items : List α} (h : ∀ item ∈ items, (f item).IsNested) :
    (items.forM f).IsNested := by
  induction items with
  | nil => exact isNested_pure ()
  | cons item rest ih =>
      obtain ⟨hitem, hrest⟩ := List.forall_mem_cons.mp h
      exact hitem.seq (ih hrest)

theorem mem_linesFrom {line cs : List Char} : ∀ l ∈ linesFrom line cs, ∀ c ∈ l, c ∈ line ++ cs := by
  have hdrop : ∀ line : List Char, dropReturn line ⊆ line := by
    intro line
    unfold dropReturn
    split_ifs
    · exact List.dropLast_subset line
    · exact List.Subset.refl line
  induction cs generalizing line with
  | nil =>
      unfold linesFrom
      split_ifs <;> simp
  | cons c cs ih =>
      unfold linesFrom
      split_ifs with hc
      · refine List.forall_mem_cons.mpr ⟨fun d hd => List.mem_append_left _ (hdrop line hd),
          fun l hl d hd => ?_⟩
        exact List.mem_append_right _ (List.mem_cons_of_mem c (by simpa using ih l hl d hd))
      · intro l hl d hd
        simpa using ih l hl d hd

theorem isNested_lines_of_unmarked {text : String} (h : Unmarked text) : (lines text).IsNested := by
  have hlines : ∀ line ∈ linesOf text, Neutral line := by
    intro line hline
    refine Unmarked.neutral fun c hc => ?_
    obtain ⟨l, hl, rfl⟩ := List.mem_map.mp hline
    rw [String.toList_ofList] at hc
    exact h c (by simpa using mem_linesFrom l hl c hc)
  refine isNested_lines ?_
  generalize linesOf text = lines at hlines ⊢
  induction lines with
  | nil => rfl
  | cons line rest ih =>
      obtain ⟨hline, hrest⟩ := List.forall_mem_cons.mp hlines
      rw [List.foldlM_cons, hline.nest_eq, Option.bind_eq_bind, Option.bind_some, ih hrest]

end Emit

namespace CFamily

variable {cx : Context} {d : Dialect}

theorem nested_pointerTo {type : Code} (h : type.Nested) : (pointerTo type).Nested := by
  unfold pointerTo
  split_ifs <;> exact h.append (.of_isFlat (by decide))

theorem nested_beforeName {type : Code} (h : type.Nested) : (beforeName type).Nested := by
  unfold beforeName
  split_ifs
  · exact h
  · exact h.append (.of_isFlat (by decide))

theorem isFlat_readOnly (d : Dialect) : d.readOnly.isFlat = true := by
  cases d <;> decide

theorem nested_typeCode (hp : cx.program.IsUnmarked) (ty : Ty) :
    Yields (typeCode cx d ty) Code.Nested := by
  induction ty with
  | null => exact yields_error _
  | int kind => exact yields_pure (.of_isFlat (by simp [Context.isFlat_intType]))
  | float kind => cases kind <;> exact yields_pure (.of_isFlat (by decide))
  | string =>
      exact yields_pure (.of_isFlat (by simp +decide [Dialect.stringType, isFlat_readOnly]))
  | classStorage id | classRef id =>
      refine yields_bind fun c hc => yields_pure (.of_isFlat ?_)
      simp +decide [Lexeme.isFlat, hp.className c (Context.mem_classes_of_classOf hc)]
  | array element storage length ih =>
      exact ih.bind fun type htype => yields_pure (nested_pointerTo htype)
  | _ => exact yields_pure (.of_isFlat (by decide))

theorem nested_declaration (hp : cx.program.IsUnmarked) (ty : Ty) {name : Lexeme}
    (hname : name.isFlat = true) : Yields (declaration cx d ty name) Code.Nested := by
  have hdimensions : ∀ lengths : List UInt32, Code.Nested
      (lengths.flatMap fun n => [.symbol "[", .number (toString n.toNat), .symbol "]"]) := by
    intro lengths
    induction lengths with
    | nil => exact .nil
    | cons n rest ih =>
        have hlength : Code.Nested [.symbol "[", .number (toString n.toNat), .symbol "]"] :=
          fun awaited => by simp
        rw [List.flatMap_cons]
        exact hlength.append ih
  exact yields_bind fun _ _ => (nested_typeCode hp _).bind fun type htype =>
    yields_pure ((nested_beforeName htype).append (.flat hname (hdimensions _)))

theorem isFlat_counter (depth : Nat) : (counter depth).isFlat = true :=
  Lexeme.isFlat_word ((by decide : Unmarked "_i").append (unmarked_repr depth))

theorem nested_countingLoop (depth : Nat) (length : UInt32) :
    (countingLoop (counter depth) length).Nested := fun awaited => by
  simp +decide [countingLoop, isFlat_counter]

theorem unmarked_constructName {name : String} (h : Unmarked name) :
    Unmarked (constructName name) :=
  h.functionName (by decide)

theorem isNested_constructCalls (hp : cx.program.IsUnmarked) (depth : Nat) {place : Code}
    (hplace : place.Nested) (ty : Ty) : (constructCalls cx depth place ty).IsNested := by
  induction ty generalizing depth place with
  | classStorage id =>
      refine Emit.isNested_lift (fun _ h => h) fun constructed _ => ?_
      split_ifs
      · refine Emit.isNested_lift (fun _ h => h) fun c hc => Emit.isNested_line fun awaited => ?_
        have hname := unmarked_constructName (hp.className c (Context.mem_classes_of_classOf hc))
        simp +decide [Lexeme.isFlat_word hname, Code.parenthesized, hplace.nest_append]
      · exact Emit.isNested_pure ()
  | array element storage length ih =>
      cases storage with
      | false => exact Emit.isNested_pure ()
      | true =>
          refine Emit.isNested_lift (fun _ h => h) fun constructed _ => ?_
          split_ifs
          · cases length with
            | none => exact Emit.isNested_refused _
            | some n =>
                have helement : (place ++ [.symbol "[", counter depth, .symbol "]"]).Nested :=
                  hplace.append fun awaited => by simp [isFlat_counter]
                exact (Emit.isNested_line (nested_countingLoop depth n)).seq
                  (ih (depth + 1) helement).indented
          · exact Emit.isNested_pure ()
  | _ => exact Emit.isNested_pure ()

theorem isNested_declareLocal (hp : cx.program.IsUnmarked) {decl : VarDecl}
    (hname : Unmarked decl.name) (hvalue : ∀ e ∈ decl.value, e.isUnmarked = true) :
    (declareLocal cx d decl).IsNested := by
  refine Emit.isNested_lift (nested_declaration hp _ (Context.isFlat_localWord hname))
    fun type htype => (Emit.isNested_put htype).seq ?_
  have hzeros : Code.Nested (Code.operator "=" ++
      [Lexeme.symbol "\x7b", Lexeme.gap, Lexeme.number "0", Lexeme.gap, Lexeme.symbol "\x7d"]) :=
        fun _ => rfl
  split_ifs
  · exact (Emit.isNested_note _).seq (Emit.isNested_put hzeros)
  · exact Emit.isNested_put hzeros
  · cases hdecl : decl.value with
    | none => exact Emit.isNested_pure ()
    | some e =>
        exact Emit.isNested_lift (Context.nested_code hp (hvalue e hdecl)) fun code hcode =>
          Emit.isNested_put (Code.Nested.append (.operator (by decide)) hcode)

end CFamily

namespace ActionScript

variable {cx : Context}

theorem nested_typeCode (hp : cx.program.IsUnmarked) (ty : Ty) :
    Yields (typeCode cx ty) Code.Nested := by
  cases ty with
  | null => exact yields_error _
  | int kind =>
      cases kind with
      | long => exact yields_error _
      | _ => exact yields_pure (.of_isFlat (by decide))
  | classStorage id | classRef id =>
      exact yields_bind fun c hc => yields_pure (Context.nested_word
        (hp.className c (Context.mem_classes_of_classOf hc)))
  | array element storage length =>
      refine yields_bind fun _ _ => yields_pure (Context.nested_word ?_)
      split_ifs <;> decide
  | _ => exact yields_pure (.of_isFlat (by decide))

theorem nested_typed (hp : cx.program.IsUnmarked) {name : String} (hname : Unmarked name)
    (ty : Ty) :
    Yields (typed cx name ty) Code.Nested :=
  (nested_typeCode hp ty).bind fun _ htype => yields_pure (Code.Nested.flat
    (Context.isFlat_localWord hname) (Code.Nested.append (.operator (by decide)) htype))

theorem nested_impliedInitializer (hp : cx.program.IsUnmarked) (ty : Ty) :
    Yields (impliedInitializer cx ty) fun implied => ∀ code ∈ implied, code.Nested := by
  unfold impliedInitializer
  split
  · refine yields_bind fun c hc => yields_pure ?_
    have hname := hp.className c (Context.mem_classes_of_classOf hc)
    rintro code ⟨⟩ awaited
    simp +decide [Lexeme.isFlat_word hname]
  · rename_i element length
    refine yields_pure ?_
    rintro code ⟨⟩
    split_ifs
    · exact fun _ => rfl
    · refine Code.Nested.append (.of_isFlat (by decide)) (Code.Nested.parenthesized ?_)
      cases length with
      | none => exact .nil
      | some n => exact .of_isFlat (by simp)
  · exact yields_pure nofun

theorem isNested_initializer (hp : cx.program.IsUnmarked) (name : String) (ty : Ty)
    {value : Option Expr} (hvalue : ∀ e ∈ value, e.isUnmarked = true) :
    (initializer cx name ty value).IsNested := by
  have hassigned : ∀ code : Code, code.Nested → (Emit.put (Code.operator "=" ++ code)).IsNested :=
    fun code hcode => Emit.isNested_put (Code.Nested.append (.operator (by decide)) hcode)
  refine Emit.isNested_lift (nested_impliedInitializer hp ty) fun implied himplied => ?_
  cases implied with
  | some code =>
      refine (hassigned code (himplied code rfl)).seq ?_
      split_ifs
      · exact Emit.isNested_note _
      · exact Emit.isNested_pure ()
  | none =>
      cases value with
      | none => exact Emit.isNested_pure ()
      | some e => exact Emit.isNested_lift (Context.nested_code hp (hvalue e rfl)) hassigned

theorem isNested_declareLocal (hp : cx.program.IsUnmarked) {decl : VarDecl}
    (hname : Unmarked decl.name) (hvalue : ∀ e ∈ decl.value, e.isUnmarked = true) :
    (declareLocal cx decl).IsNested :=
  Emit.isNested_lift (nested_typed hp hname _) fun _ htype =>
    (Emit.isNested_put (Code.Nested.append (.of_isFlat (by decide)) htype)).seq
      (isNested_initializer hp _ _ hvalue)

end ActionScript

namespace Context

variable {cx : Context}

theorem unmarked_assignText (op : AssignOp) : Unmarked op.text := by
  cases op <;> decide

theorem nested_assign (hp : cx.program.IsUnmarked) {target value : Expr} (op : AssignOp)
    (htarget : target.isUnmarked = true) (hvalue : value.isUnmarked = true) :
    Yields (cx.assign target op value) Code.Nested := by
  have hplace : (cx.operand target).IsNested := nested_code hp htarget
  have hgiven : (cx.operand value).IsNested := nested_code hp hvalue
  have hplain : Yields (do return (← cx.code target) ++ Code.operator op.text ++ (← cx.code value))
      Code.Nested :=
    Yields.bind hplace fun _ hfirst => Yields.bind hgiven fun _ hsecond =>
      yields_pure ((hfirst.append (.operator (unmarked_assignText op))).append hsecond)
  unfold assign
  split
  · unfold ActionScript.assign
    split_ifs
    · refine Yields.bind hplace fun place hfirst => ?_
      have hquotient : Yields (ActionScript.quotient (cx.operand target) (cx.operand value))
          Code.Nested :=
        (Operand.nested_infixed .div hplace hgiven).bind fun _ hinside =>
          yields_pure fun awaited => by simp +decide [hinside.nest_append]
      exact hquotient.bind fun _ hsecond =>
        yields_pure ((hfirst.append (.operator (by decide))).append hsecond)
    · split
      case h_1 array position ty _ _ =>
        obtain ⟨-, hchildren⟩ := Expr.isUnmarked_iff.mp htarget
        have harray : (cx.operand array).IsNested :=
          nested_code hp (hchildren array (by simp [Expr.children]))
        have hposition : (cx.operand position).IsNested :=
          nested_code hp (hchildren position (by simp [Expr.children]))
        exact nested_helperCall _ (by decide) (by simpa using ⟨harray, hposition, hgiven⟩)
      case h_2 => exact yields_error _
    · exact hplain
  · exact hplain

variable {s : Stmt}

theorem isNested_declareLocal (hp : cx.program.IsUnmarked) {decl : VarDecl}
    (hs : (Stmt.declare decl).isUnmarked = true) : (cx.declareLocal decl).IsNested := by
  obtain ⟨hname, hvalue, -⟩ := Stmt.isUnmarked_iff.mp hs
  have hvalue : ∀ e ∈ decl.value, e.isUnmarked = true := fun e he =>
    hvalue e (Option.mem_toList.mpr he)
  unfold declareLocal
  split
  · exact ActionScript.isNested_declareLocal hp (hname _ rfl) hvalue
  · exact CFamily.isNested_declareLocal hp (hname _ rfl) hvalue

theorem isNested_simple (hp : cx.program.IsUnmarked) (hs : s.isUnmarked = true) :
    (cx.simple s).IsNested := by
  have hexprs := (Stmt.isUnmarked_iff.mp hs).2.1
  cases s with
  | eval e =>
      exact Emit.isNested_lift (nested_code hp (hexprs e (by simp [Stmt.exprs])))
        fun _ => Emit.isNested_put
  | declare decl => exact isNested_declareLocal hp hs
  | assign target op value =>
      exact Emit.isNested_lift (nested_assign hp op (hexprs target (by simp [Stmt.exprs]))
        (hexprs value (by simp [Stmt.exprs]))) fun _ => Emit.isNested_put
  | _ => exact Emit.isNested_refused _

theorem isNested_symbolLine (text : String) (h : Unmarked text) :
    (Emit.line [.symbol text]).IsNested :=
  Emit.isNested_line (.of_isFlat (by simp [Lexeme.isFlat, h]))

theorem isNested_simpleLine (hp : cx.program.IsUnmarked) (hs : s.isUnmarked = true) :
    (cx.simpleLine s).IsNested := by
  refine (isNested_simple hp hs).seq ((isNested_symbolLine ";" (by decide)).seq ?_)
  unfold afterSimple
  split
  · rename_i decl _
    have hname := (Stmt.isUnmarked_iff.mp hs).1 _ rfl
    exact CFamily.isNested_constructCalls hp 0
      (.of_isFlat (by simp [isFlat_localWord hname])) decl.ty
  · exact Emit.isNested_pure ()

theorem isNested_loopHead (hp : cx.program.IsUnmarked) {start advance : Option Stmt}
    {cond : Option Expr} (hstart : ∀ s ∈ start, s.isUnmarked = true)
    (hcond : ∀ e ∈ cond, e.isUnmarked = true) (hadvance : ∀ s ∈ advance, s.isUnmarked = true) :
    (cx.loopHead start cond advance).IsNested := by
  have hfirst : (cx.startClause start).IsNested := by
    cases start with
    | none => exact Emit.isNested_pure ()
    | some s =>
        have hsimple := isNested_simple hp (hstart s rfl)
        unfold startClause loopStart
        cases cx.target with
        | actionScript => exact (Emit.isNested_pure ()).seq hsimple
        | cFamily d => exact Emit.isNested_lift (fun _ h => h) fun _ _ => hsimple
  have hsecond : (cx.condClause cond).IsNested := by
    cases cond with
    | none => exact Emit.isNested_pure ()
    | some e =>
        exact Emit.isNested_lift (nested_code hp (hcond e rfl)) fun _ hcode =>
          Emit.isNested_put (Code.Nested.flat rfl hcode)
  have hthird : (cx.advanceClause advance).IsNested := by
    cases advance with
    | none => exact Emit.isNested_pure ()
    | some s =>
        exact (Emit.isNested_put (.of_isFlat (by decide))).seq (isNested_simple hp (hadvance s rfl))
  have hsemicolon : (Emit.put [.symbol ";"]).IsNested := Emit.isNested_put (.of_isFlat (by decide))
  rw [loopHead_eq]
  -- The parenthesis of the head stays open over all clauses.
  intro awaited
  have hopen : (Emit.put [.word "for", .gap, .symbol "("]).Takes awaited (')' :: awaited) :=
    Emit.takes_put rfl
  have hclose : (Emit.put [.symbol ")"]).Takes (')' :: awaited) awaited := Emit.takes_put rfl
  exact hopen.bind fun _ => (hfirst _).bind fun _ => (hsemicolon _).bind fun _ =>
    (hsecond _).bind fun _ => (hsemicolon _).bind fun _ => (hthird _).bind fun _ => hclose

theorem isNested_head (hp : cx.program.IsUnmarked) {keyword : String} (hkeyword : Unmarked keyword)
    {cond : Expr} (hcond : cond.isUnmarked = true) : (cx.head keyword cond).IsNested :=
  Emit.isNested_lift (nested_code hp hcond) fun _ hcode => Emit.isNested_put
    (Code.Nested.append (.of_isFlat (by simp +decide [Lexeme.isFlat_word hkeyword]))
      hcode.parenthesized)

theorem isNested_nested {printed : Emit Unit} (s : Stmt) (h : printed.IsNested) :
    (nested s printed).IsNested := by
  unfold nested
  split
  · exact (Emit.isNested_put (.of_isFlat (by decide))).seq h
  · exact Emit.isNested_newline.seq h.indented

theorem isNested_alternative {printed : Emit Unit} (s : Stmt) (h : printed.IsNested) :
    (alternative s printed).IsNested := by
  refine (Emit.isNested_put (.of_isFlat (by decide))).seq ?_
  split
  · exact (Emit.isNested_put (.of_isFlat (by decide))).seq h
  · exact isNested_nested s h

/-- A word, an expression and a semicolon. -/
theorem isNested_wordLine (hp : cx.program.IsUnmarked) {keyword : String}
    (hkeyword : Unmarked keyword) {e : Expr} (he : e.isUnmarked = true) : Emit.IsNested (do
      Emit.line (([.word keyword, .gap] : Code) ++ (← cx.inline e) ++ ([.symbol ";"] : Code))) :=
  Emit.isNested_lift (nested_code hp he) fun _ hcode => Emit.isNested_line fun awaited => by
    simp +decide [Lexeme.isFlat_word hkeyword, hcode.nest_append]

theorem isNested_statements {stmts : List Stmt} (h : ∀ s ∈ stmts, (cx.statement s).IsNested) :
    (cx.statements stmts).IsNested := by
  induction stmts with
  | nil => exact Emit.isNested_pure ()
  | cons s rest ih =>
      obtain ⟨hs, hrest⟩ := List.forall_mem_cons.mp h
      rw [statements]
      exact hs.seq (ih hrest)

/-- A printed statement closes the brackets that it opens and no others. -/
theorem isNested_statement (hp : cx.program.IsUnmarked) (s : Stmt) (hs : s.isUnmarked = true) :
    (cx.statement s).IsNested := by
  induction s using Stmt.inductOn with
  | h s ih =>
  obtain ⟨htext, hexprs, hchildren⟩ := Stmt.isUnmarked_iff.mp hs
  have ih : ∀ child ∈ s.children, (cx.statement child).IsNested := fun child hchild =>
    ih child hchild (hchildren child hchild)
  cases s with
  | block stmts =>
      rw [statement]
      exact (isNested_statements ih).braced
  | eval | declare | assign =>
      rw [statement]
      exact isNested_simpleLine hp hs
  | branch cond onTrue onFalse =>
      have hif : (cx.head "if" cond).IsNested :=
        isNested_head hp (by decide) (hexprs cond (by simp [Stmt.exprs]))
      have htrue := isNested_nested onTrue (ih onTrue (by simp [Stmt.children]))
      cases onFalse with
      | none =>
          rw [statement]
          exact hif.seq htrue
      | some onFalse =>
          rw [statement]
          exact hif.seq (htrue.seq
            (isNested_alternative onFalse (ih onFalse (by simp [Stmt.children]))))
  | whileLoop cond body =>
      rw [statement]
      exact (isNested_head hp (by decide) (hexprs cond (by simp [Stmt.exprs]))).seq
        (isNested_nested body (ih body (by simp [Stmt.children])))
  | doLoop body cond =>
      have hbody := isNested_nested body (ih body (by simp [Stmt.children]))
      have hwhile : (cx.head "while" cond).IsNested :=
        isNested_head hp (by decide) (hexprs cond (by simp [Stmt.exprs]))
      rw [statement]
      exact (Emit.isNested_put (.of_isFlat (by decide))).seq
        (hbody.seq (hwhile.seq (isNested_symbolLine ";" (by decide))))
  | forLoop start cond advance body =>
      have hhead : (cx.loopHead start cond advance).IsNested :=
        isNested_loopHead hp (fun s h => hchildren s (by simp_all [Stmt.children]))
          (fun e h => hexprs e (by simp_all [Stmt.exprs]))
          (fun s h => hchildren s (by simp_all [Stmt.children]))
      rw [statement]
      exact hhead.seq (isNested_nested body (ih body (by simp [Stmt.children])))
  | breakLoop | continueLoop =>
      rw [statement]
      exact Emit.isNested_line (.of_isFlat (by decide))
  | returnValue value =>
      rw [statement]
      cases value with
      | none => exact Emit.isNested_line (.of_isFlat (by decide))
      | some e => exact isNested_wordLine hp (by decide) (hexprs e (by simp [Stmt.exprs]))
  | native text =>
      rw [statement]
      exact Emit.isNested_lines_of_unmarked (htext text rfl)
  | «throwError» message =>
      rw [statement]
      unfold thrown
      cases cx.target with
      | actionScript =>
          exact isNested_wordLine hp (by decide) (hexprs message (by simp [Stmt.exprs]))
      | cFamily d => exact Emit.isNested_refused _

theorem isNested_block (hp : cx.program.IsUnmarked) {stmts : Block}
    (h : ∀ s ∈ stmts, s.isUnmarked = true) : (cx.statements stmts).IsNested :=
  isNested_statements fun s hs => isNested_statement hp s (h s hs)

theorem isNested_body (hp : cx.program.IsUnmarked) {stmts : Block}
    (h : ∀ s ∈ stmts, s.isUnmarked = true) : (cx.body stmts).IsNested :=
  (isNested_block hp h).braced

end Context

end Emitter
