import Emitter.Proofs.Whole.Files

/-!
# Runs one after the other

A backend is used for any number of runs. Where a run goes through, all that it opened is closed
again and its files are handed out; where it stops, what it wrote is forgotten. Either way nothing
of it is left, and the next run answers as that of a new backend does.
-/

namespace Emitter

open Layout Program

namespace Backend

/-- The reports of runs on one backend, one after the other, each with the backend that it
leaves. -/
def runAll : Backend → List (Program × Options) → List (Report × Backend)
  | _, [] => []
  | b, (p, o) :: rest => b.run p o :: (b.run p o).2.runAll rest

/-- A run answers with its files or a refusal and leaves the backend as new. -/
theorem run_whole (b : Backend) {p : Program} (hp : p.Whole) (o : Options) :
    Proper (b.run p o).1.files ∧ (b.run p o).2 = ofTarget b.target := by
  obtain ⟨hproper, hblank⟩ := leads_emission b.target hp o ⟨.new, []⟩ rfl
  unfold run
  rcases hrun : (emission b.target p o).run.run ⟨.new, []⟩ with ⟨fault | ⟨⟩, desk⟩
  · rw [hrun] at hproper
    exact ⟨fun fault' h => hproper fault' (by simpa using h), rfl⟩
  · rw [hrun] at hblank
    have hblank : desk.writer = { Writer.new with files := desk.writer.files } := hblank () rfl
    refine ⟨proper_ok _, ?_⟩
    dsimp only [Writer.takeFiles]
    rw [hblank]
    rfl

/-- On programs without dangling references, no run of a backend unbalances the layout, each leaves
the writer idle and the backend as new, even before the next run makes the writer forget, and each
answers as the first run of a new backend does, with the same files or the same fault and the same
notices. -/
theorem runAll_asNew (t : Target) {jobs : List (Program × Options)}
    (h : ∀ job ∈ jobs, job.1.findDangling = none) :
    List.Forall₂ (fun job after => after.1.files ≠ .error .unbalanced ∧ after.2.writer.Idle ∧
        after.2 = ofTarget t ∧ after.1 = ((ofTarget t).run job.1 job.2).1)
      jobs ((ofTarget t).runAll jobs) := by
  induction jobs with
  | nil => exact .nil
  | cons job rest ih =>
      obtain ⟨p, o⟩ := job
      obtain ⟨hjob, hrest⟩ := List.forall_mem_cons.mp h
      have hp : p.Whole := fun id hid => findDangling_eq_none_iff.mp hjob id (mem_mentions.mp hid)
      obtain ⟨hproper, hnew⟩ := (ofTarget t).run_whole hp o
      have hbalanced : ((ofTarget t).run p o).1.files ≠ .error .unbalanced := fun hfiles => by
        obtain ⟨refusal, hrefusal⟩ := hproper .unbalanced hfiles
        cases hrefusal
      have hidle : ((ofTarget t).run p o).2.writer.Idle := by
        rw [hnew]
        exact Writer.idle_new
      refine .cons ⟨hbalanced, hidle, hnew, rfl⟩ ?_
      -- The next run starts on a backend that is as new as the first one.
      rw [hnew]
      exact ih hrest

/-- A run that is refused and one that goes through, twice. -/
theorem runAll_asNew_refused :
    let thrower : ClassDef := ⟨"Game", .exported, none,
      some [.block [.throwError (.literal .null .null)]], [], []⟩
    let failing : Program := ⟨[], [thrower], [.classDef ⟨0⟩], [], .empty⟩
    let working : Program := ⟨[], [{ thrower with constructor? := some [] }], [.classDef ⟨0⟩], [],
      .empty⟩
    let o : Options := ⟨⟨"game"⟩, none⟩
    let jobs := [(failing, o), (working, o), (failing, o), (working, o)]
    let after := (ofTarget (.cFamily .standard)).runAll jobs
    (∀ job ∈ jobs, job.1.findDangling = none) ∧
      after.map (fun entry => entry.1.files.toOption.isSome) = [false, true, false, true] ∧
      List.Forall₂ (fun job entry => entry.1.files ≠ .error .unbalanced ∧ entry.2.writer.Idle ∧
        entry.2 = ofTarget (.cFamily .standard) ∧
          entry.1 = ((ofTarget (.cFamily .standard)).run job.1 job.2).1) jobs after := by
  intro thrower failing working o jobs after
  have hjobs : ∀ job ∈ jobs, job.1.findDangling = none := by
    simp only [jobs, List.forall_mem_cons]
    exact ⟨rfl, rfl, rfl, rfl, nofun⟩
  exact ⟨hjobs, by decide +kernel, runAll_asNew (.cFamily .standard) hjobs⟩

end Backend

end Emitter
