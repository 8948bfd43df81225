import Emitter.Proofs.Names.Statement
import Emitter.Proofs.Statement.Margins
import Emitter.Proofs.Whole.Play

/-!
# Emissions on lines of their own

An emission that ends its last line and keeps to its file prints the same text wherever a line
starts at the margin. A text that is put together from such emissions therefore consists of their
texts, in order, with nothing but line ends in between.
-/

namespace Emitter

open Layout Program Text

namespace Step

/-- Whether a line starts after the step, if one does or does not start before it. -/
def startsLine (start : Bool) : Step → Bool
  | .put code => start && code.text = ""
  | .newline => true
  | .lines text => start || !(linesOf text).isEmpty
  | _ => start

/-- Whether a line starts after the steps. -/
def endsLine (start : Bool) (steps : List Step) : Bool := steps.foldl startsLine start

@[simp] theorem endsLine_nil (start : Bool) : endsLine start [] = start := rfl

@[simp] theorem endsLine_append (start : Bool) (first second : List Step) :
    endsLine start (first ++ second) = endsLine (endsLine start first) second :=
  List.foldl_append

end Step

namespace Emit

variable {α β : Type} {e : Emit Unit}

/-- An emission that goes through ends where a line starts if it begins where one does. -/
def Keeps (e : Emit α) : Prop :=
  ∀ steps a, e = ⟨steps, .ok a⟩ → Step.endsLine true steps = true

/-- An emission that goes through ends where a line starts. -/
def Ends (e : Emit α) : Prop :=
  ∀ steps a, e = ⟨steps, .ok a⟩ → ∀ start, Step.endsLine start steps = true

theorem Ends.keeps {e : Emit α} (h : e.Ends) : e.Keeps := fun steps a hs => h steps a hs true

theorem Keeps.bind {e : Emit α} {next : α → Emit β} (h : e.Keeps)
    (hnext : ∀ a, (next a).Keeps) : (e >>= next).Keeps := fun steps b hsteps => by
  obtain ⟨a, first, rest, hfirst, hrest, rfl⟩ := bind_eq_ok.mp hsteps
  rw [Step.endsLine_append, h first a hfirst, hnext a rest b hrest]

theorem Ends.bind {e : Emit α} {next : α → Emit β} (h : e.Ends)
    (hnext : ∀ a, (next a).Keeps) : (e >>= next).Ends := fun steps b hsteps start => by
  obtain ⟨a, first, rest, hfirst, hrest, rfl⟩ := bind_eq_ok.mp hsteps
  rw [Step.endsLine_append, h first a hfirst, hnext a rest b hrest]

theorem ends_bind {e : Emit α} {next : α → Emit β} (hnext : ∀ a, (next a).Ends) :
    (e >>= next).Ends := fun steps b hsteps start => by
  obtain ⟨a, first, rest, -, hrest, rfl⟩ := bind_eq_ok.mp hsteps
  rw [Step.endsLine_append, hnext a rest b hrest]

theorem keeps_pure (a : α) : (pure a : Emit α).Keeps := fun steps b h => by
  obtain ⟨-, rfl⟩ := pure_eq_ok.mp h
  rfl

theorem keeps_lift (r : Result α) : (liftM r : Emit α).Keeps := fun steps a h => by
  obtain ⟨-, rfl⟩ := liftM_eq_ok.mp h
  rfl

theorem ends_refused (fault : Fault) : (liftM (.error fault : Result α) : Emit α).Ends :=
  fun steps a h => by simp [liftM_eq_ok] at h

theorem ends_line (code : Code) : (line code).Ends := fun steps _ h start => by
  obtain rfl := ofSteps_eq_ok.mp h
  rfl

theorem ends_newline : newline.Ends := fun steps _ h start => by
  obtain rfl := ofSteps_eq_ok.mp h
  rfl

theorem keeps_lines (text : String) : (lines text).Keeps := fun steps _ h => by
  obtain rfl := ofSteps_eq_ok.mp h
  rfl

theorem keeps_note (notice : Notice) : (note notice).Keeps := fun steps _ h => by
  obtain rfl := ofSteps_eq_ok.mp h
  rfl

theorem Keeps.indented (h : e.Keeps) : e.indented.Keeps := fun steps _ hsteps => by
  obtain ⟨inner, he, rfl⟩ := indented_eq_ok.mp hsteps
  have hline : Step.endsLine true inner = true := h inner () he
  change Step.endsLine true ([Step.indent] ++ (inner ++ [Step.dedent])) = true
  simp only [Step.endsLine_append]
  exact hline

theorem ends_braced (e : Emit Unit) : e.braced.Ends := fun steps _ hsteps start => by
  obtain ⟨inner, -, rfl⟩ := braced_eq_ok.mp hsteps
  change Step.endsLine start ([Step.put _, Step.newline, Step.indent] ++
    (inner ++ [Step.dedent, Step.put _, Step.newline])) =
    true
  simp [Step.endsLine, Step.startsLine]

theorem keeps_forM {f : α → Emit Unit} {items : List α} (h : ∀ item ∈ items, (f item).Keeps) :
    (items.forM f).Keeps := by
  induction items with
  | nil => exact keeps_pure ()
  | cons item rest ih =>
      obtain ⟨hitem, hrest⟩ := List.forall_mem_cons.mp h
      exact hitem.bind fun _ => ih hrest

end Emit

theorem CFamily.keeps_constructCalls {cx : Context} {depth : Nat} {place : Code} {ty : Ty} :
    (constructCalls cx depth place ty).Keeps := by
  induction ty generalizing depth place with
  | classStorage id =>
      refine (Emit.keeps_lift _).bind fun constructed => ?_
      cases constructed with
      | false => exact Emit.keeps_pure ()
      | true => exact (Emit.keeps_lift _).bind fun c => (Emit.ends_line _).keeps
  | array element storage length ih =>
      cases storage with
      | false => exact Emit.keeps_pure ()
      | true =>
          refine (Emit.keeps_lift _).bind fun constructed => ?_
          cases constructed with
          | false => exact Emit.keeps_pure ()
          | true =>
              cases length with
              | none => exact (Emit.ends_refused _).keeps
              | some n => exact (Emit.ends_line _).keeps.bind fun _ => ih.indented
  | _ => exact Emit.keeps_pure ()

namespace Context

variable {cx : Context}

theorem ends_simpleLine (s : Stmt) : (cx.simpleLine s).Ends := by
  refine Emit.ends_bind fun _ => (Emit.ends_line _).bind fun _ => ?_
  unfold afterSimple
  split
  · exact CFamily.keeps_constructCalls
  · exact Emit.keeps_pure ()

theorem ends_nested {printed : Emit Unit} {s : Stmt} (hkeeps : printed.Keeps)
    (hends : s.isBlock = true → printed.Ends) : (nested s printed).Ends := by
  unfold nested
  split_ifs with hblock
  · exact Emit.ends_bind fun _ => hends hblock
  · exact Emit.ends_newline.bind fun _ => hkeeps.indented

theorem ends_alternative {printed : Emit Unit} {s : Stmt} (hkeeps : printed.Keeps)
    (hends : s.isBlock = true ∨ s.isBranch = true → printed.Ends) :
    (alternative s printed).Ends := by
  refine Emit.ends_bind fun _ => ?_
  split_ifs with hbranch
  · exact Emit.ends_bind fun _ => hends (.inr hbranch)
  · exact ends_nested hkeeps fun hblock => hends (.inl hblock)

/-- A statement that may begin in the middle of a line ends at the start of one all the same. -/
theorem keeps_and_ends_statement (s : Stmt) : (cx.statement s).Keeps ∧
    (s.isBlock = true ∨ s.isBranch = true → (cx.statement s).Ends) := by
  induction s using Stmt.inductOn with
  | h s ih =>
  have hnested : ∀ child ∈ s.children, (nested child (cx.statement child)).Ends :=
    fun child hchild =>
      ends_nested (ih child hchild).1 fun hblock => (ih child hchild).2 (.inl hblock)
  have hall : (cx.statement s).Ends →
      (cx.statement s).Keeps ∧ (s.isBlock = true ∨ s.isBranch = true → (cx.statement s).Ends) :=
    fun h => ⟨h.keeps, fun _ => h⟩
  cases s with
  | native text =>
      rw [statement]
      exact ⟨Emit.keeps_lines text, by simp [Stmt.isBlock, Stmt.isBranch]⟩
  | block stmts =>
      refine hall ?_
      rw [statement]
      exact Emit.ends_braced _
  | eval e =>
      refine hall ?_
      rw [statement]
      exact ends_simpleLine _
  | declare decl =>
      refine hall ?_
      rw [statement]
      exact ends_simpleLine _
  | assign target op value =>
      refine hall ?_
      rw [statement]
      exact ends_simpleLine _
  | branch cond onTrue onFalse =>
      refine hall ?_
      cases onFalse with
      | none =>
          rw [statement]
          exact Emit.ends_bind fun _ => hnested onTrue (by simp [Stmt.children])
      | some onFalse =>
          have hfalse := ih onFalse (by simp [Stmt.children])
          rw [statement]
          exact Emit.ends_bind fun _ => Emit.ends_bind fun _ => ends_alternative hfalse.1 hfalse.2
  | whileLoop cond body =>
      refine hall ?_
      rw [statement]
      exact Emit.ends_bind fun _ => hnested body (by simp [Stmt.children])
  | doLoop body cond =>
      refine hall ?_
      rw [statement]
      exact Emit.ends_bind fun _ => Emit.ends_bind fun _ => Emit.ends_bind fun _ => Emit.ends_line _
  | forLoop start cond advance body =>
      refine hall ?_
      rw [statement]
      exact Emit.ends_bind fun _ => hnested body (by simp [Stmt.children])
  | breakLoop | continueLoop =>
      refine hall ?_
      rw [statement]
      exact Emit.ends_line _
  | returnValue value =>
      refine hall ?_
      rw [statement]
      cases value with
      | none => exact Emit.ends_line _
      | some e => exact Emit.ends_bind fun _ => Emit.ends_line _
  | _ =>
      refine hall ?_
      rw [statement]
      unfold thrown
      cases cx.target with
      | actionScript => exact Emit.ends_bind fun _ => Emit.ends_line _
      | cFamily d => exact Emit.ends_refused _

theorem keeps_statements (stmts : List Stmt) : (cx.statements stmts).Keeps := by
  induction stmts with
  | nil => exact Emit.keeps_pure ()
  | cons s rest ih =>
      rw [statements]
      exact (keeps_and_ends_statement s).1.bind fun _ => ih

end Context

/-! What steps add depends on the writer only by its margin and by whether a line starts. So texts
can be put together from the texts of the parts. -/

namespace Layout.Writer

/-- A writer that has got further in the same file. -/
def further (w : Writer) (added : String) (indent : Nat) (atLineStart : Bool) : Writer :=
  { w with out := w.out ++ added, indent, atLineStart }

/-- The writer is at the given margin, and a line starts there or does not. -/
def At (w : Writer) (indent : Nat) (start : Bool) : Prop :=
  w.indent = indent ∧ w.atLineStart = start

variable {indent : Nat} {start : Bool}

theorem at_further (w : Writer) (added : String) : (w.further added indent start).At indent start :=
  ⟨rfl, rfl⟩

theorem further_further (w : Writer) (added more : String) (indent' : Nat) (start' : Bool) :
    (w.further added indent start).further more indent' start' =
      w.further (added ++ more) indent' start' := by
  simp [further, String.append_assoc]

theorem further_empty {w : Writer} (h : w.At indent start) : w.further "" indent start = w := by
  obtain ⟨rfl, rfl⟩ := h
  simp [further]

/-- What is written depends on nothing but the margin. -/
theorem exists_write (text : String) (indent : Nat) (start : Bool) : ∃ added, ∀ w : Writer,
    w.At indent start → w.write text = w.further added indent (start && text = "") := by
  by_cases hempty : text = ""
  · refine ⟨"", fun w hw => ?_⟩
    simp [write, hempty, further_empty hw]
  · cases start with
    | true =>
        refine ⟨margin indent ++ text, fun w hw => ?_⟩
        obtain ⟨rfl, hline⟩ := hw
        simp [write, hempty, hline, further, String.append_assoc]
    | false =>
        refine ⟨text, fun w hw => ?_⟩
        obtain ⟨rfl, hline⟩ := hw
        simp [write, hempty, hline, further]

theorem exists_write_code (code : Code) (indent : Nat) (start : Bool) : ∃ added, ∀ w : Writer,
    w.At indent start → code.foldl (fun w l => w.write l.text) w =
      w.further added indent (start && code.text = "") := by
  induction code generalizing start with
  | nil => exact ⟨"", fun w hw => by simp [Code.text, further_empty hw]⟩
  | cons l rest ih =>
      obtain ⟨first, hfirst⟩ := exists_write l.text indent start
      obtain ⟨others, hothers⟩ := ih (start && l.text = "")
      refine ⟨first ++ others, fun w hw => ?_⟩
      have htext : Code.text (l :: rest) = l.text ++ Code.text rest :=
        String.toList_inj.mp (by simp [Code.toList_text])
      rw [List.foldl_cons, hfirst w hw, hothers _ (at_further ..), further_further, htext]
      simp [Bool.and_assoc]

theorem exists_writeLines (text : String) (indent : Nat) (start : Bool) : ∃ added, ∀ w : Writer,
    w.At indent start → w.writeLines text =
      w.further added indent (start || !(linesOf text).isEmpty) := by
  unfold writeLines
  induction linesOf text generalizing start with
  | nil => exact ⟨"", fun w hw => by simp [further_empty hw]⟩
  | cons l rest ih =>
      obtain ⟨first, hfirst⟩ := exists_write l indent start
      obtain ⟨others, hothers⟩ := ih true
      refine ⟨first ++ "\n" ++ others, fun w hw => ?_⟩
      have hline : w.writeLine l = w.further (first ++ "\n") indent true := by
        rw [writeLine, hfirst w hw]
        simp [newline, further, String.append_assoc]
      rw [List.foldl_cons, hline, hothers _ (at_further ..), further_further]
      simp

end Layout.Writer

namespace Step

/-- From every writer at the margin the steps can be taken, and they add the same text; or they can
be taken from none of them. -/
def Uniform (steps : List Step) (indent : Nat) (start : Bool) : Prop :=
  (∃ added indent', ∀ w notices, w.At indent start → ∃ notices',
    (Desk.mk w notices).play? steps =
      some ⟨w.further added indent' (endsLine start steps), notices'⟩) ∨
  ∀ w notices, w.At indent start → (Desk.mk w notices).play? steps = none

theorem uniform_singleton {step : Step} (hstay : step.staysInFile = true) (indent : Nat)
    (start : Bool) : Uniform [step] indent start := by
  have hone : ∀ d : Desk, d.play? [step] = d.step? step := fun d => by simp [Desk.play?]
  simp only [Uniform, hone]
  cases step with
  | put code =>
      obtain ⟨added, hadded⟩ := Writer.exists_write_code code indent start
      exact .inl ⟨added, indent, fun w notices hw => ⟨notices, by
        simp [Desk.step?, hadded w hw, endsLine, startsLine]⟩⟩
  | newline =>
      exact .inl ⟨"\n", indent, fun w notices hw => ⟨notices, by
        simp [Desk.step?, Writer.newline, Writer.further, endsLine, startsLine, hw.1]⟩⟩
  | lines text =>
      obtain ⟨added, hadded⟩ := Writer.exists_writeLines text indent start
      exact .inl ⟨added, indent, fun w notices hw => ⟨notices, by
        simp [Desk.step?, hadded w hw, endsLine, startsLine]⟩⟩
  | indent =>
      exact .inl ⟨"", indent + 1, fun w notices hw => ⟨notices, by
        simp [Desk.step?, Writer.indentMore, Writer.further, endsLine, startsLine, hw.1, hw.2]⟩⟩
  | dedent =>
      cases indent with
      | zero => exact .inr fun w notices hw => by simp [Desk.step?, Writer.dedent?, hw.1]
      | succ n =>
          exact .inl ⟨"", n, fun w notices hw => ⟨notices, by
            simp [Desk.step?, Writer.dedent?, Writer.further, endsLine, startsLine, hw.1, hw.2]⟩⟩
  | note notice =>
      exact .inl ⟨"", indent, fun w notices hw => ⟨notices ++ [notice], by
        simp [Desk.step?, endsLine, startsLine, Writer.further_empty hw]⟩⟩
  | _ => simp [staysInFile] at hstay

theorem uniform {steps : List Step} (hstay : ∀ step ∈ steps, step.staysInFile = true)
    (indent : Nat) (start : Bool) : Uniform steps indent start := by
  induction steps generalizing indent start with
  | nil =>
      exact .inl ⟨"", indent, fun w notices hw => ⟨notices, by
        simp [Desk.play?, Writer.further_empty hw]⟩⟩
  | cons step rest ih =>
      obtain ⟨hstep, hrest⟩ := List.forall_mem_cons.mp hstay
      have hsplit : ∀ d : Desk, d.play? (step :: rest) = (d.play? [step]).bind (·.play? rest) :=
        fun d => d.play?_append [step] rest
      simp only [Uniform, hsplit]
      rcases uniform_singleton hstep indent start with ⟨first, mid, hfirst⟩ | hnone
      · rcases ih hrest mid (endsLine start [step]) with ⟨others, last, hothers⟩ | hnone
        · refine .inl ⟨first ++ others, last, fun w notices hw => ?_⟩
          obtain ⟨notices', hw'⟩ := hfirst w notices hw
          obtain ⟨notices'', hw''⟩ := hothers _ notices' (Writer.at_further w first)
          refine ⟨notices'', ?_⟩
          rw [hw', Option.bind_some, hw'', Writer.further_further]
          rfl
        · refine .inr fun w notices hw => ?_
          obtain ⟨notices', hw'⟩ := hfirst w notices hw
          simp [hw', hnone _ notices' (Writer.at_further w first)]
      · exact .inr fun w notices hw => by simp [hnone w notices hw]

end Step

/-- The text is empty or ends in a line end. -/
def EndsLine (text : String) : Prop := text = "" ∨ text.toList.getLast? = some '\n'

theorem EndsLine.append {first rest : String} (h : EndsLine first) (h' : EndsLine rest) :
    EndsLine (first ++ rest) := by
  rcases h' with rfl | h'
  · simpa using h
  · exact .inr (by simp [h'])

namespace Layout.Writer

/-- A line that starts at the end of the buffer starts behind a line end, or behind nothing. -/
def Aligned (w : Writer) : Prop := w.atLineStart = true → EndsLine w.out

variable {w : Writer}

theorem Aligned.write (h : w.Aligned) (text : String) : (w.write text).Aligned := by
  unfold Writer.write
  split_ifs
  · exact h
  · exact nofun
  · next hempty hstart => exact fun hstart' => absurd hstart' hstart

theorem Aligned.writeCode (h : w.Aligned) (code : Code) :
    (code.foldl (fun w l => w.write l.text) w).Aligned := by
  induction code generalizing w with
  | nil => exact h
  | cons l rest ih => exact ih (h.write l.text)

theorem aligned_newline (w : Writer) : w.newline.Aligned := fun _ => .inr (by simp [newline])

theorem Aligned.writeLines (h : w.Aligned) (text : String) : (w.writeLines text).Aligned := by
  unfold Writer.writeLines
  induction linesOf text generalizing w with
  | nil => exact h
  | cons l rest ih => exact ih (aligned_newline _)

end Layout.Writer

theorem Desk.aligned_of_play {steps : List Step} {d d' : Desk}
    (hstay : ∀ step ∈ steps, step.staysInFile = true) (h : d.play? steps = some d')
    (hd : d.writer.Aligned) : d'.writer.Aligned := by
  induction steps generalizing d with
  | nil =>
      obtain rfl : d = d' := by simpa [play?] using h
      exact hd
  | cons step rest ih =>
      obtain ⟨hstep, hrest⟩ := List.forall_mem_cons.mp hstay
      obtain ⟨mid, hmid, h⟩ : ∃ mid, d.step? step = some mid ∧ mid.play? rest = some d' := by
        simpa [play?, List.foldlM_cons, Option.bind_eq_some_iff] using h
      refine ih hrest h ?_
      cases step with
      | put code =>
          obtain rfl := Option.some.inj hmid
          exact hd.writeCode code
      | newline =>
          obtain rfl := Option.some.inj hmid
          exact Writer.aligned_newline _
      | lines text =>
          obtain rfl := Option.some.inj hmid
          exact hd.writeLines text
      | indent | note =>
          obtain rfl := Option.some.inj hmid
          exact hd
      | dedent =>
          obtain ⟨w, hw, rfl⟩ := Option.map_eq_some_iff.mp hmid
          unfold Writer.dedent? at hw
          split_ifs at hw
          obtain rfl := Option.some.inj hw
          exact hd
      | _ => simp [Step.staysInFile] at hstep

namespace Emit

variable {α β : Type} {e : Emit Unit}

/-- Wherever a line starts at the left margin, the emission goes through, adds the text, and ends
where a line starts at the left margin. -/
structure PrintsText (e : Emit α) (text : String) : Prop where
  endsLine : EndsLine text
  plays : ∀ w notices, w.At 0 true → ∃ notices',
    (Desk.mk w notices).play? e.steps = some ⟨w.further text 0 true, notices'⟩

/-- The text that the emission prints on an empty page. -/
def text (e : Emit α) : String :=
  (((Desk.mk .new []).play? e.steps).map (·.writer.out)).getD ""

theorem PrintsText.text_eq {e : Emit α} {text : String} (h : e.PrintsText text) :
    e.text = text := by
  obtain ⟨notices, hplay⟩ := h.plays .new [] ⟨rfl, rfl⟩
  rw [Emit.text, hplay]
  simp [Writer.further, Writer.new]

/-- An emission in balance that ends its last line prints a text of its own. -/
theorem printsText_text {e : Emit α} {a : α} (hok : e.outcome = .ok a) (hplays : e.Plays)
    (hstay : ∀ step ∈ e.steps, step.staysInFile = true) (hkeeps : e.Keeps) :
    e.PrintsText e.text := by
  obtain ⟨steps, outcome⟩ := e
  obtain rfl : outcome = .ok a := hok
  have hline : Step.endsLine true steps = true := hkeeps steps a rfl
  obtain ⟨d, hplay, -, hd⟩ := hplays ⟨.new, []⟩
  rcases Step.uniform hstay 0 true with ⟨added, indent, hall⟩ | hnone
  · obtain ⟨notices, hnew⟩ := hall .new [] ⟨rfl, rfl⟩
    have hd' : d = _ := Option.some.inj (hplay.symm.trans hnew)
    obtain rfl : indent = 0 := by
      have hindent := (hd a rfl).2.1
      rw [hd'] at hindent
      exact hindent
    have haligned : d.writer.Aligned := Desk.aligned_of_play hstay hplay fun _ => .inl rfl
    have hends : EndsLine added := by
      rw [hd'] at haligned
      simpa [Writer.further, Writer.new] using haligned hline
    have hprints : (Emit.mk steps (.ok a)).PrintsText added := ⟨hends, fun w notices hw => by
      simpa [hline] using hall w notices hw⟩
    rwa [hprints.text_eq]
  · simp [hnone .new [] ⟨rfl, rfl⟩] at hplay

theorem PrintsText.bind {e : Emit α} {next : α → Emit β} {a : α} {first rest : String}
    (h : e.PrintsText first) (hok : e.outcome = .ok a) (hnext : (next a).PrintsText rest) :
    (e >>= next).PrintsText (first ++ rest) := by
  refine ⟨h.endsLine.append hnext.endsLine, fun w notices hw => ?_⟩
  obtain ⟨steps, outcome⟩ := e
  obtain rfl : outcome = .ok a := hok
  obtain ⟨notices', hplay⟩ := h.plays w notices hw
  obtain ⟨notices'', hplay'⟩ := hnext.plays _ notices' (Writer.at_further w first)
  have hsteps : (Emit.mk steps (.ok a) >>= next).steps = steps ++ (next a).steps := rfl
  exact ⟨notices'', by simp [hsteps, Desk.play?_append, hplay, hplay', Writer.further_further]⟩

end Emit

/-- The text without line ends in front. -/
def trimmed (text : String) : String := String.ofList (text.toList.dropWhile (· = '\n'))

theorem trimmed_newline (text : String) : trimmed ("\n" ++ text) = trimmed text := by
  simp [trimmed]

theorem trimmed_trimmed (text : String) : trimmed (trimmed text) = trimmed text := by
  simp [trimmed, List.dropWhile_idempotent]

/-- What follows a text that starts with no line end leaves its start alone. -/
theorem trimmed_append {text : String} (hne : text ≠ "") (h : trimmed text = text)
    (more : String) : trimmed (text ++ more) = text ++ more := by
  have hlist : text.toList.dropWhile (· = '\n') = text.toList := by
    simpa [trimmed] using congrArg String.toList h
  apply String.toList_inj.mp
  cases hcs : text.toList with
  | nil => exact absurd (String.toList_eq_nil_iff.mp hcs) hne
  | cons c cs =>
      have hc : c ≠ '\n' := by
        rintro rfl
        have hlen := congrArg List.length (hcs ▸ hlist)
        have hle := List.length_dropWhile_le (· = '\n') cs
        simp at hlen
        omega
      simp [trimmed, hcs, hc]

/-- The contents are the texts, in order, with nothing but line ends between them. -/
inductive Spread : List String → String → Prop
  | nil : Spread [] ""
  | newline {texts : List String} {contents : String} (h : Spread texts contents) :
      Spread texts ("\n" ++ contents)
  | text (text : String) {texts : List String} {contents : String} (h : Spread texts contents) :
      Spread (text :: texts) (text ++ contents)

namespace Spread

variable {texts more : List String} {contents rest : String}

theorem append (h : Spread texts contents) (h' : Spread more rest) :
    Spread (texts ++ more) (contents ++ rest) := by
  induction h with
  | nil => simpa using h'
  | newline h ih => simpa [String.append_assoc] using ih.newline
  | text t h ih => simpa [String.append_assoc] using ih.text t

/-- Any text is itself without the line ends in front of it. -/
theorem of_text (text : String) : Spread [trimmed text] text := by
  have hall : ∀ cs : List Char,
      Spread [String.ofList (cs.dropWhile (· = '\n'))] (String.ofList cs) := by
    intro cs
    induction cs with
    | nil => exact Spread.nil.text ""
    | cons c cs ih =>
        by_cases hc : c = '\n'
        · subst hc
          have hcons : String.ofList ('\n' :: cs) = "\n" ++ String.ofList cs :=
            String.toList_inj.mp (by simp)
          simpa [hcons] using ih.newline
        · simpa [hc] using Spread.nil.text (String.ofList (c :: cs))
  simpa [trimmed] using hall text.toList

/-- Line ends in front are none of the texts'. -/
theorem trim (h : Spread texts contents) (htexts : ∀ text ∈ texts, trimmed text = text) :
    Spread texts (trimmed contents) := by
  induction h with
  | nil => exact .nil
  | newline h ih => simpa [trimmed_newline] using ih htexts
  | text t h ih =>
      obtain ⟨ht, hrest⟩ := List.forall_mem_cons.mp htexts
      by_cases hempty : t = ""
      · subst hempty
        simpa using (ih hrest).text ""
      · rw [trimmed_append hempty ht]
        exact h.text t

/-- Texts that are joined by line ends, those that are empty left out. -/
theorem intercalate {segments : List String} {textss : List (List String)}
    (h : List.Forall₂ Spread textss segments) :
    Spread textss.flatten ("\n".intercalate (segments.filter (· ≠ ""))) := by
  induction h with
  | nil => exact .nil
  | @cons texts segment textss segments hfirst hrest ih =>
      by_cases hempty : segment = ""
      · subst hempty
        simpa using hfirst.append ih
      · rw [List.filter_cons_of_pos (by simpa using hempty), List.flatten_cons]
        cases hkept : segments.filter (· ≠ "") with
        | nil =>
            rw [hkept] at ih
            simpa using hfirst.append ih
        | cons next rest =>
            rw [hkept] at ih
            rw [String.intercalate_cons_cons]
            simpa [String.append_assoc] using hfirst.append ih.newline

end Spread

namespace Emit

variable {α β : Type} {parts more : List (Emit Unit)}

/-- An emission that goes through is made of the parts: they go through, its names are theirs, and
its text is theirs with nothing but line ends in between. -/
def MadeOf (parts : List (Emit Unit)) (e : Emit α) : Prop :=
  ∀ a, e.outcome = .ok a → (∀ part ∈ parts, part.outcome = .ok ()) ∧
    Step.names e.steps = parts.flatMap (fun part => Step.names part.steps) ∧
      ∃ text, e.PrintsText text ∧ Spread (parts.map fun part => trimmed part.text) text

theorem madeOf_self {cx : Context} {names : List PrintedName} {e : Emit Unit} (hplays : e.Plays)
    (hprints : e.Prints cx names) (hkeeps : e.Keeps) : e.MadeOf [e] := by
  intro a hok
  have he : e = ⟨e.steps, .ok a⟩ := by rw [← hok]
  have hstay := (hprints e.steps a he).1
  exact ⟨by simp [hok], by simp, e.text, printsText_text hok hplays hstay hkeeps,
    Spread.of_text e.text⟩

theorem MadeOf.bind {e : Emit α} {next : α → Emit β} (h : e.MadeOf parts)
    (hnext : ∀ a, e.outcome = .ok a → (next a).MadeOf more) :
    (e >>= next).MadeOf (parts ++ more) := by
  intro b hb
  obtain ⟨a, first, rest, hfirst, hrest, hsteps⟩ :=
    bind_eq_ok.mp (show e >>= next = ⟨(e >>= next).steps, .ok b⟩ by rw [← hb])
  have hok : e.outcome = .ok a := by rw [hfirst]
  obtain ⟨hall, hnames, text, htext, hspread⟩ := h a hok
  obtain ⟨hall', hnames', text', htext', hspread'⟩ := hnext a hok b (by rw [hrest])
  refine ⟨?_, ?_, text ++ text', htext.bind hok htext', by simpa using hspread.append hspread'⟩
  · simpa [or_imp, forall_and] using And.intro hall hall'
  · rw [hfirst] at hnames
    rw [hrest] at hnames'
    simp [hsteps, hnames, hnames']

theorem MadeOf.seq {e : Emit Unit} {next : Emit α} (h : e.MadeOf parts) (hnext : next.MadeOf more) :
    (do e; next).MadeOf (parts ++ more) := h.bind fun _ _ => hnext

theorem madeOf_lift {r : Result α} {next : α → Emit β}
    (h : ∀ a, r = .ok a → (next a).MadeOf parts) :
    (liftM r >>= next).MadeOf parts := by
  intro b hb
  cases r with
  | error fault =>
      have hfault : (Except.error fault : Result β) = .ok b := hb
      cases hfault
  | ok a => exact h a rfl b hb

theorem madeOf_nil {e : Emit Unit} {text : String} (hnames : Step.names e.steps = [])
    (htext : e.PrintsText text) (hspread : Spread [] text) : e.MadeOf [] :=
  fun _ _ => ⟨by simp, hnames, text, htext, hspread⟩

theorem madeOf_pure : (pure () : Emit Unit).MadeOf [] :=
  madeOf_nil rfl ⟨.inl rfl, fun w notices hw => ⟨notices, by
    rw [Writer.further_empty hw]; rfl⟩⟩ Spread.nil

theorem PrintsText.group {e : Emit Unit} {text : String} (h : e.PrintsText text)
    (hok : e.outcome = .ok ()) : e.group.PrintsText (if text = "" then "" else "\n" ++ text) := by
  obtain ⟨steps, outcome⟩ := e
  obtain rfl : outcome = .ok () := hok
  refine ⟨?_, fun w notices hw => ?_⟩
  · split_ifs
    · exact .inl rfl
    · exact EndsLine.append (.inr (by simp)) h.endsLine
  · have hbegin : w.beginSection.At 0 true := ⟨hw.1, rfl⟩
    obtain ⟨notices', hplay⟩ := h.plays _ notices hbegin
    refine ⟨notices', ?_⟩
    have hsteps : (Emit.mk steps (.ok ())).group.steps = [Step.beginSection] ++
        (steps ++ [Step.pasteSection]) :=
      rfl
    have hdone : (Desk.mk w notices).play? (Emit.mk steps (.ok ())).group.steps =
        some ⟨(w.beginSection.further text 0 true).pasteSection, notices'⟩ := by
      rw [hsteps, Desk.play?_append, Desk.play?_singleton]
      simp [Desk.step?, Desk.play?_append, hplay]
    rw [hdone]
    obtain ⟨hindent, hstart⟩ := hw
    rcases h.endsLine with rfl | hlast
    · simp [Writer.pasteSection, Writer.endSection, Writer.further, Writer.beginSection, hindent,
        hstart]
    · have hne : text ≠ "" := by
        rintro rfl
        simp at hlast
      simp [Writer.pasteSection, Writer.endSection, Writer.further, Writer.beginSection, hne,
        Writer.newline, Writer.writeRaw, hlast, hindent, String.append_assoc]

theorem MadeOf.group {e : Emit Unit} (h : e.MadeOf parts) : e.group.MadeOf parts := by
  intro a hok
  obtain ⟨hall, hnames, text, htext, hspread⟩ := h a hok
  refine ⟨hall, ?_, _, htext.group hok, ?_⟩
  · rw [← hnames]
    obtain ⟨steps, outcome⟩ := e
    change Step.names ([Step.beginSection] ++ (steps ++ [_])) = Step.names steps
    simp only [Step.names_append]
    cases outcome <;> simp [Step.names, Step.code, Except.isOk, Except.toBool]
  · split_ifs with hempty
    · exact hempty ▸ hspread
    · exact hspread.newline

theorem madeOf_forM {f : α → Emit Unit} {g : α → List (Emit Unit)} {items : List α}
    (h : ∀ item ∈ items, (f item).MadeOf (g item)) : (items.forM f).MadeOf (items.flatMap g) := by
  induction items with
  | nil => exact madeOf_pure
  | cons item rest ih =>
      obtain ⟨hitem, hrest⟩ := List.forall_mem_cons.mp h
      exact hitem.seq (ih hrest)

theorem MadeOf.of_eq {e : Emit α} (h : e.MadeOf parts) (hparts : parts = more) : e.MadeOf more :=
  hparts ▸ h

end Emit

end Emitter
