import Emitter.Proofs.Whole.Play

/-!
# What a run of a C target ends with

The layout of a C file is in balance whatever the program is, and the headers and helpers in front
of it are always printed. So a run goes through exactly if the bodies and then the declarations do,
and otherwise it ends with their first fault.
-/

namespace Emitter

open Layout Program

namespace Run

variable {α β : Type} {I J K : Desk → Prop} {x y : Result Unit}

/-- From every desk with the first property, the run goes through if the result is a value, on a
desk with the second property, and else it stops at the fault. -/
def Ends (I J : Desk → Prop) (x : Result Unit) (r : Run α) : Prop :=
  ∀ d, I d → (r.run.run d).1.map (fun _ => ()) = x ∧
    ∀ a, (r.run.run d).1 = .ok a → J (r.run.run d).2

theorem Ends.bind {r : Run α} {next : α → Run β} (h : r.Ends I J x)
    (hnext : ∀ a, (next a).Ends J K y) : (r >>= next).Ends I K (do x; y) := by
  intro d hd
  obtain ⟨hx, hd'⟩ := h d hd
  have hrun : (r >>= next).run.run d = match r.run.run d with
      | (.ok a, d') => (next a).run.run d'
      | (.error fault, d') => (.error fault, d') := by
    simp only [ExceptT.run_bind, StateT.run_bind]
    rcases r.run.run d with ⟨_ | _, d'⟩ <;> rfl
  rw [hrun]
  rcases hr : r.run.run d with ⟨fault | a, d'⟩
  · rw [hr] at hx
    obtain rfl : Except.error fault = x := hx
    exact ⟨rfl, nofun⟩
  · rw [hr] at hx hd'
    obtain rfl : Except.ok () = x := hx
    exact hnext a d' (hd' a rfl)

/-- An emission that can be carried out ends a run as the emission ends. -/
theorem ends_perform {e : Emit Unit}
    (h : ∀ d, I d → ∃ d', d.play? e.steps = some d' ∧ (e.outcome = .ok () → J d')) :
    (perform e).Ends I J e.outcome := by
  intro d hd
  obtain ⟨d', hplay, hd'⟩ := h d hd
  rw [run_perform, hplay]
  refine ⟨?_, fun _ hok => hd' hok⟩
  change e.outcome.map _ = e.outcome
  cases e.outcome <;> rfl

theorem ends_steps {steps : List Step} (h : ∀ d, I d → ∃ d', d.play? steps = some d' ∧ J d') :
    (perform (Emit.ofSteps steps)).Ends I J (.ok ()) :=
  ends_perform fun d hd =>
    have ⟨d', hplay, hd'⟩ := h d hd
    ⟨d', hplay, fun _ => hd'⟩

theorem ends_modify {f : Desk → Desk} (h : ∀ d, I d → J (f d)) :
    (modify f : Run Unit).Ends I J (.ok ()) := fun d hd => ⟨rfl, fun _ _ => h d hd⟩

/-- Nothing but the text is left of a section. -/
theorem ends_sectionText {e : Emit Unit} (h : e.Plays) (file : Option Path) :
    (sectionText e).Ends (·.writer.currentFile = file) (·.writer.currentFile = file) e.outcome := by
  have hbegin : (modify fun d => { d with writer := d.writer.beginSection } : Run Unit).Ends
      (·.writer.currentFile = file) (·.writer.currentFile = file) (.ok ()) :=
    ends_modify fun _ hd => hd
  have hperform : (perform e).Ends (·.writer.currentFile = file) (·.writer.currentFile = file)
      e.outcome := ends_perform fun d hd => by
    obtain ⟨d', hplay, hstays, -⟩ := h d
    exact ⟨d', hplay, fun _ => hstays.1.trans hd⟩
  have hend : (do
      let d ← get
      modify fun after => { after with writer := d.writer.endSection.2 }
      return d.writer.endSection.1 : Run String).Ends
        (·.writer.currentFile = file) (·.writer.currentFile = file) (.ok ()) :=
    fun _ hd => ⟨rfl, fun _ _ => hd⟩
  have hall := hbegin.bind fun _ => hperform.bind fun _ => hend
  have houtcome : (do Except.ok (); e.outcome; Except.ok () : Result Unit) = e.outcome := by
    cases e.outcome <;> rfl
  rwa [houtcome] at hall

end Run

namespace CFamily

variable {cx : Context} {d : Dialect}

theorem outcome_includes (used : List Supplier) : (includes d used).outcome = .ok () := by
  cases d with
  | standard => exact Emit.outcome_forM_ok (fun _ => rfl) _
  | openCL => rfl

theorem outcome_library (used : List Supplier) : (library d used).outcome = .ok () := by
  cases d with
  | standard => rfl
  | openCL =>
      refine Emit.outcome_forM_ok (fun entry => ?_) _
      dsimp only
      split_ifs <;> rfl

/-- The bodies are printed first, then the declarations, and nothing else can fail. -/
theorem ends_assemble (path : Path) : (assemble cx d path).Ends
    (·.writer.currentFile = none) (fun _ => True)
      (do (bodies cx d).outcome; (declarations cx d).outcome) := by
  let Closed : Desk → Prop := (·.writer.currentFile = none)
  let Open : Desk → Prop := fun d => d.writer.currentFile = some path ∧ d.writer.indent = 0
  have hopen :
      (Run.perform (Emit.ofSteps [.note (.assembling cx.target path), .openFile path])).Ends
      Closed Open (.ok ()) := Run.ends_steps fun d (hd : d.writer.currentFile = none) => by
    refine ⟨⟨{ d.writer with
        out := "", indent := 0, atLineStart := true, currentFile := some path },
      d.notices ++ [.assembling cx.target path]⟩, ?_, rfl, rfl⟩
    simp [Desk.play?, Desk.step?, Writer.createFile?, hd]
  have hwrite : ∀ text, (modify fun desk => { desk with writer := desk.writer.writeRaw text } :
      Run Unit).Ends Open Open (.ok ()) := fun text => Run.ends_modify fun _ hd => hd
  have hclose : (Run.perform (Emit.ofSteps [.closeFile])).Ends Open (fun _ => True) (.ok ()) :=
    Run.ends_steps fun d hd => by
      obtain ⟨hfile, hindent⟩ := hd
      simp [Desk.play?, Desk.step?, Writer.closeFile?, hfile, hindent]
  have hall : (assemble cx d path).Ends Closed (fun _ => True) _ :=
    (Run.ends_sectionText plays_bodies none).bind fun _ =>
      (Run.ends_sectionText plays_declarations none).bind fun _ =>
        (Run.ends_sectionText (plays_library _) none).bind fun _ =>
          (Run.ends_sectionText (plays_includes _) none).bind fun _ =>
            hopen.bind fun _ => (hwrite _).bind fun _ => hclose
  simp only [outcome_library, outcome_includes] at hall
  convert hall using 1
  cases (bodies cx d).outcome <;> cases (declarations cx d).outcome <;> rfl

/-- A run of a C target leaves its file if the bodies and the declarations go through, and else the
first fault in them. -/
theorem outcome_generate (d : Dialect) (p : Program) (o : Options) :
    (generate (Target.cFamily d).name p o).files.map (fun _ => ()) =
      (do (bodies ⟨p, .cFamily d, none⟩ d).outcome
          (declarations ⟨p, .cFamily d, none⟩ d).outcome) := by
  have hname : Backend.ofName? (Target.cFamily d).name = .ok ⟨.cFamily d, .new⟩ := by
    cases d <;> rfl
  rw [← (ends_assemble (outputPath (.cFamily d) o.output) ⟨.new, []⟩ rfl).1]
  simp only [generate, hname, Backend.run, Backend.emission]
  rcases (assemble ⟨p, .cFamily d, none⟩ d (outputPath (.cFamily d) o.output)).run.run
    ⟨.new, []⟩ with ⟨fault | ⟨⟩, desk⟩ <;> rfl

end CFamily

end Emitter
