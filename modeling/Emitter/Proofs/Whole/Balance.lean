import Emitter.Proofs.Expression.Operands
import Emitter.Proofs.Whole.Lookups
import Emitter.Target.Emit

/-!
# Balanced emissions

What an emission needs of the desk it is carried out on, and what it leaves. A steady emission can
be carried out anywhere, and it ends in the file, at the margin and in the section where it began;
where it stops at a fault, it has left none of the blocks around it. So opening and closing braces
and files around it always succeeds.
-/

namespace Emitter

open Layout

namespace Layout.Writer

/-- No file is open, nothing is pending, no section is set aside and the margin is the leftmost. -/
structure Idle (w : Writer) : Prop where
  out : w.out = ""
  indent : w.indent = 0
  suspended : w.suspended = []
  currentFile : w.currentFile = none

theorem idle_new : Writer.new.Idle := ⟨rfl, rfl, rfl, rfl⟩

@[simp] theorem currentFile_write (w : Writer) (text : String) :
    (w.write text).currentFile = w.currentFile := by
  unfold write
  split_ifs <;> rfl

@[simp] theorem indent_write (w : Writer) (text : String) : (w.write text).indent = w.indent := by
  unfold write
  split_ifs <;> rfl

@[simp] theorem suspended_write (w : Writer) (text : String) :
    (w.write text).suspended = w.suspended := by
  unfold write
  split_ifs <;> rfl

@[simp] theorem currentFile_pasteSection (w : Writer) :
    w.pasteSection.currentFile = w.currentFile := by
  unfold pasteSection
  dsimp only
  split_ifs <;> rfl

@[simp] theorem indent_pasteSection (w : Writer) : w.pasteSection.indent = w.indent := by
  unfold pasteSection
  dsimp only
  split_ifs <;> rfl

@[simp] theorem suspended_pasteSection (w : Writer) :
    w.pasteSection.suspended = w.suspended.tail := by
  unfold pasteSection
  dsimp only
  split_ifs <;> rfl

end Layout.Writer

namespace Desk

/-- The desk is in the given file, or in none, at the given margin and in the given sections. -/
def At (file : Option Path) (level : Nat) (held : List (String × Bool)) (d : Desk) : Prop :=
  d.writer.currentFile = file ∧ d.writer.indent = level ∧ d.writer.suspended = held

/-- Nothing is open. -/
def Free (d : Desk) : Prop := d.writer.Idle

/-- The writer is as a new one is, apart from the files that are done. -/
def Blank (d : Desk) : Prop := d.writer = { Writer.new with files := d.writer.files }

/-- The second desk is in the file of the first, and in every block that is open on the first. -/
def Stays (d d' : Desk) : Prop :=
  d'.writer.currentFile = d.writer.currentFile ∧ d.writer.indent ≤ d'.writer.indent

/-- The second desk is in the file, at the margin and in the sections of the first. -/
def Returns (d d' : Desk) : Prop :=
  d'.At d.writer.currentFile d.writer.indent d.writer.suspended

variable {d d' d'' : Desk}

theorem Blank.idle (h : d.Blank) : d.writer.Idle := by
  rw [h]
  exact ⟨rfl, rfl, rfl, rfl⟩

theorem Returns.stays (h : d.Returns d') : d.Stays d' := ⟨h.1, h.2.1.ge⟩

theorem Returns.trans (h : d.Returns d') (h' : d'.Returns d'') : d.Returns d'' :=
  ⟨h'.1.trans h.1, h'.2.1.trans h.2.1, h'.2.2.trans h.2.2⟩

theorem Returns.trans_stays (h : d.Returns d') (h' : d'.Stays d'') : d.Stays d'' :=
  ⟨h'.1.trans h.1, h.2.1.ge.trans h'.2⟩

theorem play?_append (d : Desk) (first second : List Step) :
    d.play? (first ++ second) = (d.play? first).bind (·.play? second) := by
  simp [play?, List.foldlM_append, bind]

@[simp] theorem play?_singleton (d : Desk) (step : Step) : d.play? [step] = d.step? step := by
  simp [play?]

end Desk

namespace Emit

variable {α β : Type} {I J K : Desk → Prop}

/-- From every desk with the first property, the emission can be carried out; it ends in a value or
a refusal, and with a value on a desk with the second property. -/
structure Leads (I J : Desk → Prop) (e : Emit α) : Prop where
  proper : Proper e.outcome
  plays : ∀ d, I d → ∃ d', d.play? e.steps = some d' ∧ ∀ a, e.outcome = .ok a → J d'

theorem Leads.bind {e : Emit α} {next : α → Emit β} (h : e.Leads I J)
    (hnext : ∀ a, e.outcome = .ok a → (next a).Leads J K) : (e >>= next).Leads I K := by
  change (Emit.bind e next).Leads I K
  unfold Emit.bind
  cases houtcome : e.outcome with
  | error fault =>
      obtain ⟨refusal, rfl⟩ := h.proper fault houtcome
      refine ⟨proper_refused refusal, fun d hd => ?_⟩
      obtain ⟨d', hplay, -⟩ := h.plays d hd
      exact ⟨d', hplay, nofun⟩
  | ok a =>
      have hnext := hnext a houtcome
      refine ⟨hnext.proper, fun d hd => ?_⟩
      obtain ⟨d', hplay, hd'⟩ := h.plays d hd
      obtain ⟨d'', hplay', hd''⟩ := hnext.plays d' (hd' a houtcome)
      exact ⟨d'', by simp [Desk.play?_append, hplay, hplay'], hd''⟩

/-- Steps without a value can be carried out one by one. -/
theorem leads_step {step : Step} (h : ∀ d, I d → ∃ d', d.step? step = some d' ∧ J d') :
    (ofSteps [step]).Leads I J := by
  refine ⟨proper_ok (), fun d hd => ?_⟩
  obtain ⟨d', hstep, hd'⟩ := h d hd
  exact ⟨d', by simp [ofSteps, hstep], fun _ _ => hd'⟩

theorem leads_lift {r : Result α} (h : Proper r) : (liftM r : Emit α).Leads I I :=
  ⟨h, fun d hd => ⟨d, rfl, fun _ _ => hd⟩⟩

theorem leads_forM {f : α → Emit Unit} {items : List α}
    (h : ∀ item ∈ items, (f item).Leads I I) : (items.forM f).Leads I I := by
  induction items with
  | nil => exact ⟨proper_ok (), fun d hd => ⟨d, rfl, fun _ _ => hd⟩⟩
  | cons item rest ih =>
      obtain ⟨hitem, hrest⟩ := List.forall_mem_cons.mp h
      exact hitem.bind fun _ _ => ih hrest

theorem leads_note (notice : Notice) : (note notice).Leads Desk.Blank Desk.Blank :=
  leads_step fun _ hd => ⟨_, rfl, hd⟩

theorem leads_openFile (path : Path) :
    (ofSteps [.openFile path]).Leads Desk.Blank (Desk.At (some path) 0 []) :=
  leads_step fun d hd => ⟨{ d with writer := { d.writer with
      out := "", indent := 0, atLineStart := true, currentFile := some path } },
    by simp [Desk.step?, Writer.createFile?, hd.idle.currentFile], rfl, rfl, hd.idle.suspended⟩

theorem leads_closeFile (path : Path) :
    (ofSteps [.closeFile]).Leads (Desk.At (some path) 0 []) Desk.Blank :=
  leads_step fun d ⟨hfile, hlevel, hheld⟩ => by
    simp only [Desk.step?, Writer.closeFile?, hfile, hlevel]
    exact ⟨_, rfl, by simp [Desk.Blank, Writer.new, hheld]⟩

/-! A step may be impossible at a desk, such as closing a block that is not open. An emission that
never leaves the block it began in can be carried out at any desk. -/

/-- The emission can be carried out anywhere. It never leaves the file or a block that it began in,
and with a value it ends where it began. -/
def Plays (e : Emit α) : Prop :=
  ∀ d : Desk, ∃ d', d.play? e.steps = some d' ∧ d.Stays d' ∧ ∀ a, e.outcome = .ok a → d.Returns d'

theorem plays_liftM (r : Result α) : (liftM r : Emit α).Plays := fun d =>
  ⟨d, rfl, ⟨rfl, le_rfl⟩, fun _ _ => ⟨rfl, rfl, rfl⟩⟩

theorem plays_pure (a : α) : (pure a : Emit α).Plays := plays_liftM (.ok a)

theorem Plays.bind {e : Emit α} {next : α → Emit β} (h : e.Plays)
    (hnext : ∀ a, e.outcome = .ok a → (next a).Plays) : (e >>= next).Plays := by
  change (Emit.bind e next).Plays
  unfold Emit.bind
  cases houtcome : e.outcome with
  | error fault =>
      intro d
      obtain ⟨d', hplay, hstays, -⟩ := h d
      exact ⟨d', hplay, hstays, nofun⟩
  | ok a =>
      intro d
      obtain ⟨d', hplay, -, hreturns⟩ := h d
      have hreturns := hreturns a houtcome
      obtain ⟨d'', hplay', hstays, hreturns'⟩ := hnext a houtcome d'
      exact ⟨d'', by simp [Desk.play?_append, hplay, hplay'], hreturns.trans_stays hstays,
        fun b hb => hreturns.trans (hreturns' b hb)⟩

theorem Plays.seq {e : Emit Unit} {next : Emit α} (h : e.Plays) (hnext : next.Plays) :
    (do e; next).Plays := h.bind fun _ _ => hnext

theorem plays_lift (r : Result α) {next : α → Emit β} (h : ∀ a, r = .ok a → (next a).Plays) :
    (liftM r >>= next).Plays := (plays_liftM r).bind h

/-- A step that changes neither the file nor the margin nor the sections. -/
theorem plays_step {step : Step} (h : ∀ d : Desk, ∃ d', d.step? step = some d' ∧ d.Returns d') :
    (ofSteps [step]).Plays := fun d => by
  obtain ⟨d', hstep, hreturns⟩ := h d
  exact ⟨d', by simp [ofSteps, hstep], hreturns.stays, fun _ _ => hreturns⟩

theorem plays_put (code : Code) : (put code).Plays := by
  refine plays_step fun d => ⟨_, rfl, ?_⟩
  -- The lexemes are written one after the other, from whatever writer is reached.
  unfold Desk.Returns Desk.At
  generalize d.writer = w
  induction code generalizing w with
  | nil => exact ⟨rfl, rfl, rfl⟩
  | cons l rest ih => simpa using ih (w.write l.text)

theorem plays_newline : newline.Plays := plays_step fun _ => ⟨_, rfl, rfl, rfl, rfl⟩

theorem plays_note (notice : Notice) : (note notice).Plays :=
  plays_step fun _ => ⟨_, rfl, rfl, rfl, rfl⟩

theorem plays_lines (text : String) : (lines text).Plays := by
  refine plays_step fun d => ⟨_, rfl, ?_⟩
  unfold Desk.Returns Desk.At Writer.writeLines
  generalize d.writer = w
  induction Text.linesOf text generalizing w with
  | nil => exact ⟨rfl, rfl, rfl⟩
  | cons l rest ih => simpa [Writer.writeLine, Writer.newline] using ih (w.writeLine l)

theorem plays_line (code : Code) : (line code).Plays := by
  change (put code >>= fun _ => newline).Plays
  exact (plays_put code).seq plays_newline

section Layers

variable {e : Emit Unit}

/-- Where the level is left in the end, it is left on every path. -/
theorem Plays.indented (h : e.Plays) : e.indented.Plays := by
  intro d
  obtain ⟨d', hplay, ⟨hfile, hlevel⟩, hreturns⟩ := h { d with writer := d.writer.indentMore }
  have hlevel : d.writer.indent + 1 ≤ d'.writer.indent := hlevel
  have hdedent : d'.step? .dedent =
      some { d' with writer := { d'.writer with indent := d'.writer.indent - 1 } } := by
    simp [Desk.step?, Writer.dedent?, show d'.writer.indent ≠ 0 by omega]
  refine ⟨{ d' with writer := { d'.writer with indent := d'.writer.indent - 1 } }, ?_,
    ⟨hfile, by simp; omega⟩, fun a ha => ?_⟩
  · change d.play? (.indent :: (e.steps ++ [Step.dedent])) = _
    rw [← List.singleton_append, Desk.play?_append, Desk.play?_singleton]
    simp [Desk.step?, Desk.play?_append, hplay, ← hdedent]
  · obtain ⟨hfile, hlevel, hheld⟩ := hreturns a ha
    exact ⟨hfile, by simp [hlevel, Writer.indentMore], hheld⟩

/-- Steps that can be taken anywhere may follow on every path. -/
theorem Plays.closedBy {steps : List Step} (h : e.Plays) (hsteps : (ofSteps steps).Plays) :
    (e.closedBy steps).Plays := by
  intro d
  obtain ⟨d', hplay, hstays, hreturns⟩ := h d
  obtain ⟨d'', hplay', -, hreturns'⟩ := hsteps d'
  have hreturns' := hreturns' () rfl
  refine ⟨d'', ?_, ⟨hreturns'.1.trans hstays.1, hreturns'.2.1 ▸ hstays.2⟩,
    fun a ha => (hreturns a ha).trans hreturns'⟩
  change d.play? (e.steps ++ steps) = _
  rw [Desk.play?_append, hplay]
  exact hplay'

theorem Plays.braced (h : e.Plays) : e.braced.Plays :=
  (plays_line _).seq (h.indented.closedBy (plays_line _))

/-- A level that is left in the end only. -/
theorem Plays.deeper (h : e.Plays) : e.deeper.Plays := by
  obtain ⟨steps, outcome⟩ := e
  cases outcome with
  | ok a => exact Plays.indented h
  | error fault =>
      intro d
      obtain ⟨d', hplay, ⟨hfile, hlevel⟩, -⟩ := h { d with writer := d.writer.indentMore }
      have hlevel : d.writer.indent + 1 ≤ d'.writer.indent := hlevel
      refine ⟨d', ?_, ⟨hfile, by omega⟩, nofun⟩
      change d.play? ([Step.indent] ++ steps) = _
      rw [Desk.play?_append, Desk.play?_singleton]
      exact hplay

theorem Plays.group (h : e.Plays) : e.group.Plays := by
  intro d
  obtain ⟨d', hplay, ⟨hfile, hlevel⟩, hreturns⟩ := h { d with writer := d.writer.beginSection }
  have hsteps : ∀ last, d.play? (.beginSection :: (e.steps ++ [last])) = d'.step? last := by
    intro last
    rw [← List.singleton_append, Desk.play?_append, Desk.play?_singleton]
    simp [Desk.step?, Desk.play?_append, hplay]
  have hgroup : d.play? e.group.steps =
      d'.step? (if e.outcome.isOk then .pasteSection else .dropSection) := hsteps _
  rw [hgroup]
  cases houtcome : e.outcome with
  | error fault =>
      refine ⟨_, rfl, ⟨hfile, hlevel⟩, fun a ha => ?_⟩
      have ha : e.outcome = .ok a := ha
      rw [houtcome] at ha
      cases ha
  | ok a =>
      obtain ⟨hfile, hlevel, hheld⟩ := hreturns a houtcome
      have hreturns : d.Returns { d' with writer := d'.writer.pasteSection } :=
        ⟨by simpa [Writer.beginSection] using hfile,
          by simpa [Writer.beginSection] using hlevel,
          by simp [hheld, Writer.beginSection]⟩
      exact ⟨_, rfl, hreturns.stays, fun _ _ => hreturns⟩

end Layers

theorem plays_forM {f : α → Emit Unit} {items : List α} (h : ∀ item ∈ items, (f item).Plays) :
    (items.forM f).Plays := by
  induction items with
  | nil => exact plays_pure ()
  | cons item rest ih =>
      obtain ⟨hitem, hrest⟩ := List.forall_mem_cons.mp h
      exact hitem.seq (ih hrest)

theorem plays_ite {c : Prop} [Decidable c] {e e' : Emit Unit} (h : e.Plays) (h' : e'.Plays) :
    (if c then e else e').Plays := by
  split_ifs
  · exact h
  · exact h'

/-- The emission can be carried out anywhere. It never leaves the file or a block that it began in,
and with a value it ends where it began. -/
structure Steady (e : Emit α) : Prop where
  proper : Proper e.outcome
  plays : ∀ d : Desk, ∃ d', d.play? e.steps = some d' ∧ d.Stays d' ∧
    ∀ a, e.outcome = .ok a → d.Returns d'

@[simp] theorem outcome_liftM (r : Result α) : (liftM r : Emit α).outcome = r := rfl

@[simp] theorem steady_liftM {r : Result α} : Steady (liftM r : Emit α) ↔ Proper r :=
  ⟨fun h => h.proper, fun h => ⟨h, plays_liftM r⟩⟩

@[simp] theorem steady_pure (a : α) : Steady (pure a : Emit α) := ⟨proper_ok a, plays_pure a⟩

theorem Steady.bind {e : Emit α} {next : α → Emit β} (h : e.Steady)
    (hnext : ∀ a, e.outcome = .ok a → (next a).Steady) : (e >>= next).Steady := by
  refine ⟨?_, Plays.bind h.plays fun a ha => (hnext a ha).plays⟩
  change Proper (Emit.bind e next).outcome
  unfold Emit.bind
  cases houtcome : e.outcome with
  | error fault =>
      obtain ⟨refusal, rfl⟩ := h.proper fault houtcome
      exact proper_refused refusal
  | ok a => exact (hnext a houtcome).proper

@[simp] theorem steady_seq {e : Emit Unit} {next : Emit α} (h : e.Steady) (hnext : next.Steady) :
    (do e; next).Steady := h.bind fun _ _ => hnext

theorem Steady.leads {e : Emit α} (h : e.Steady) (file : Option Path) (level : Nat)
    (held : List (String × Bool)) :
    e.Leads (Desk.At file level held) (Desk.At file level held) := by
  refine ⟨h.proper, fun d ⟨hfile, hlevel, hheld⟩ => ?_⟩
  obtain ⟨d', hplay, -, hreturns⟩ := h.plays d
  exact ⟨d', hplay, fun a ha => by simpa [Desk.Returns, hfile, hlevel, hheld] using hreturns a ha⟩

@[simp] theorem steady_put (code : Code) : (put code).Steady := ⟨proper_ok (), plays_put code⟩

@[simp] theorem steady_newline : newline.Steady := ⟨proper_ok (), plays_newline⟩

@[simp] theorem steady_note (notice : Notice) : (note notice).Steady :=
  ⟨proper_ok (), plays_note notice⟩

@[simp] theorem steady_lines (text : String) : (lines text).Steady :=
  ⟨proper_ok (), plays_lines text⟩

@[simp] theorem steady_line (code : Code) : (line code).Steady := ⟨proper_ok (), plays_line code⟩

variable {e : Emit Unit}

@[simp] theorem Steady.indented (h : e.Steady) : e.indented.Steady :=
  ⟨h.proper, Plays.indented h.plays⟩

/-- Steps that can be taken anywhere may follow on every path. -/
theorem Steady.closedBy {steps : List Step} (h : e.Steady) (hsteps : (ofSteps steps).Steady) :
    (e.closedBy steps).Steady := ⟨h.proper, Plays.closedBy h.plays hsteps.plays⟩

@[simp] theorem Steady.braced (h : e.Steady) : e.braced.Steady :=
  steady_seq (steady_line _) (h.indented.closedBy (steady_line _))

/-- A level that is left in the end only. -/
@[simp] theorem Steady.deeper (h : e.Steady) : e.deeper.Steady := by
  refine ⟨?_, Plays.deeper h.plays⟩
  obtain ⟨steps, outcome⟩ := e
  cases outcome <;> exact h.proper

@[simp] theorem Steady.group (h : e.Steady) : e.group.Steady := ⟨h.proper, Plays.group h.plays⟩

theorem steady_forM {f : α → Emit Unit} {items : List α} (h : ∀ item ∈ items, (f item).Steady) :
    (items.forM f).Steady := by
  induction items with
  | nil => exact steady_pure ()
  | cons item rest ih =>
      obtain ⟨hitem, hrest⟩ := List.forall_mem_cons.mp h
      exact steady_seq hitem (ih hrest)

theorem steady_ite {c : Prop} [Decidable c] {e' : Emit Unit} (h : c → e.Steady)
    (h' : ¬c → e'.Steady) : (if c then e else e').Steady := by
  split_ifs with hc
  · exact h hc
  · exact h' hc

end Emit

namespace Run

variable {α β : Type} {I J K : Desk → Prop}

/-- From every desk with the first property, the run ends in a value or a refusal, and with a value
on a desk with the second property. -/
def Leads (I J : Desk → Prop) (r : Run α) : Prop :=
  ∀ d, I d → Proper (r.run.run d).1 ∧ ∀ a, (r.run.run d).1 = .ok a → J (r.run.run d).2

theorem Leads.bind {r : Run α} {next : α → Run β} (h : r.Leads I J)
    (hnext : ∀ a, (next a).Leads J K) : (r >>= next).Leads I K := by
  intro d hd
  obtain ⟨hproper, hd'⟩ := h d hd
  have hrun : (r >>= next).run.run d = match r.run.run d with
      | (.ok a, d') => (next a).run.run d'
      | (.error fault, d') => (.error fault, d') := by
    simp only [ExceptT.run_bind, StateT.run_bind]
    rcases r.run.run d with ⟨_ | _, d'⟩ <;> rfl
  rw [hrun]
  rcases hr : r.run.run d with ⟨fault | a, d'⟩
  · rw [hr] at hproper
    exact ⟨fun fault' h => hproper fault' (by simpa using h), nofun⟩
  · rw [hr] at hd'
    exact hnext a d' (hd' a rfl)

theorem leads_perform {e : Emit α} (h : e.Leads I J) : (perform e).Leads I J := by
  intro d hd
  obtain ⟨d', hplay, hd'⟩ := h.plays d hd
  rw [run_perform, hplay]
  exact ⟨h.proper, hd'⟩

theorem leads_modify {f : Desk → Desk} (h : ∀ d, I d → J (f d)) :
    (modify f : Run Unit).Leads I J := fun d hd => ⟨proper_ok (), fun _ _ => h d hd⟩

theorem leads_sectionText {e : Emit Unit} (h : e.Steady) :
    (sectionText e).Leads Desk.Blank Desk.Blank := by
  -- The buffer that is set aside is empty, and it is there again in the end.
  let Aside : Desk → Prop := Desk.At none 0 [("", true)]
  have hbegin : (modify fun d => { d with writer := d.writer.beginSection } : Run Unit).Leads
      Desk.Blank Aside := leads_modify fun d hd => by
    change d.writer = _ at hd
    rw [hd]
    exact ⟨rfl, rfl, rfl⟩
  refine hbegin.bind fun _ => (leads_perform (h.leads none 0 [("", true)])).bind fun _ => ?_
  refine fun d ⟨hfile, hlevel, hheld⟩ => ⟨proper_ok _, fun _ _ => ?_⟩
  change d.writer.endSection.2 = { Writer.new with files := d.writer.endSection.2.files }
  simp [Writer.endSection, Writer.new, hheld, hfile, hlevel]

end Run

end Emitter
