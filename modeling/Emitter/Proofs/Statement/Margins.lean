import Emitter.Proofs.Reading.Loose
import Emitter.Proofs.Statement.Clauses

/-!
# Printed statements without their margins

Statements are printed with a margin in front of every line. Where a line begins no token is being
read, so the margins change nothing in what a text is read as.
-/

namespace Emitter

open Layout Reading

namespace Reading

theorem Mode.extend_newline (m : Mode) : m.extend '\n' = none := by
  cases m with
  | word read => simp [extend, show isWordChar '\n' = false by decide]
  | number read =>
      have hnumber : ∀ before, continuesNumber before '\n' = false := by
        simp [continuesNumber, show isWordChar '\n' = false by decide]
      cases hlast : read.getLast? <;> simp [extend, hlast, hnumber]
  | symbol read =>
      have hall : ∀ op ∈ operators, op.getLast? ≠ some '\n' := by decide
      have hop : read ++ ['\n'] ∉ operators := fun hmem => hall _ hmem (by simp)
      simp [extend, hop, show '\n'.isDigit = false by decide]
  | between | opened | escaping | closed => rfl

/-- What is read alike in every mode is read alike behind the same characters. -/
theorem scanFrom_congr {first second : List Char}
    (h : ∀ m, scanFrom m first = scanFrom m second) (cs : List Char) (m : Mode) :
    scanFrom m (cs ++ first) = scanFrom m (cs ++ second) := by
  induction cs generalizing m with
  | nil => exact h m
  | cons c cs ih =>
      simp only [List.cons_append, scanFrom]
      cases m.extend c with
      | some next => exact ih next
      | none => simp only [ih]

theorem scanFrom_newline {first second : List Char}
    (h : scanFrom .between first = scanFrom .between second) (m : Mode) :
    scanFrom m ('\n' :: first) = scanFrom m ('\n' :: second) := by
  have hstart : Mode.start '\n' = some .between := by decide
  simp only [scanFrom, m.extend_newline, hstart, Option.bind_eq_bind, Option.bind_some, h]

/-- Spaces, tabs and line ends between tokens are passed over. -/
theorem scanFrom_space {cs : List Char} (h : ∀ c ∈ cs, c ∈ [' ', '\t', '\n']) (rest : List Char) :
    scanFrom .between (cs ++ rest) = scanFrom .between rest := by
  induction cs with
  | nil => rfl
  | cons c cs ih =>
      obtain ⟨hc, hcs⟩ := List.forall_mem_cons.mp h
      have hstart : ∀ c ∈ [' ', '\t', '\n'], Mode.start c = some .between := by decide
      rw [List.cons_append, scanFrom_start (hstart c hc), ih hcs]

end Reading

/-- What a step prints where no line has a margin. -/
def Step.text : Step → List Char
  | .put code => code.text.toList
  | .newline => ['\n']
  | _ => []

/-- What steps print where no line has a margin. -/
def Step.texts (steps : List Step) : List Char := steps.flatMap Step.text

/-- The step prints code, ends a line, or changes the margin of the lines that follow. -/
def Step.isInline : Step → Bool
  | .put _ | .newline | .indent | .dedent | .note _ => true
  | _ => false

namespace Layout.Writer

/-- Written code gets the margin in front of it if it starts a line. -/
theorem out_write_code (code : Code) (w : Writer) : ∃ margin : List Char,
    (∀ c ∈ margin, c = '\t') ∧ (w.atLineStart = false ∨ code.text = "" → margin = []) ∧
      (code.foldl (fun w l => w.write l.text) w).out.toList =
        w.out.toList ++ (margin ++ code.text.toList) ∧
      (code.foldl (fun w l => w.write l.text) w).atLineStart =
        (w.atLineStart && code.text = "") := by
  induction code generalizing w with
  | nil => exact ⟨[], by simp, by simp, by simp [Code.text], by simp [Code.text]⟩
  | cons l code ih =>
      obtain ⟨margin, htabs, hmargin, hout, hline⟩ := ih (w.write l.text)
      have htext : Code.text (l :: code) = l.text ++ Code.text code :=
        String.toList_inj.mp (by simp [Code.toList_text])
      rw [List.foldl_cons, htext]
      by_cases hempty : l.text = ""
      · have hwrite : w.write l.text = w := by simp [write, hempty]
        rw [hwrite] at hmargin hout hline ⊢
        exact ⟨margin, htabs, by simpa [hempty] using hmargin, by simpa [hempty] using hout,
          by simpa [hempty] using hline⟩
      · have hnext : (w.write l.text).atLineStart = false := by
          cases hstart : w.atLineStart <;> simp [write, hempty, hstart]
        obtain rfl := hmargin (.inl hnext)
        have hline :
            (code.foldl (fun w l => w.write l.text) (w.write l.text)).atLineStart = false := by
          simpa [hnext] using hline
        have hne : l.text ++ Code.text code ≠ "" := by simp [hempty]
        cases hstart : w.atLineStart with
        | true =>
            refine ⟨List.replicate w.indent '\t', by simp, by simp [hempty], ?_,
              by simp [hline, hne]⟩
            rw [hout]
            simp [write, hempty, hstart, Writer.margin]
        | false =>
            refine ⟨[], by simp, by simp, ?_, by simp [hline]⟩
            rw [hout]
            simp [write, hempty, hstart]

end Layout.Writer

/-- Playing inline steps adds a text that is read as what they print without margins. -/
theorem exists_out_play {steps : List Step} (hinline : ∀ step ∈ steps, step.isInline = true)
    {d d' : Desk} (h : d.play? steps = some d') : ∃ added : List Char,
      d'.writer.out.toList = d.writer.out.toList ++ added ∧
        ∀ m, (d.writer.atLineStart = true → m = .between) → ∀ rest,
          scanFrom m (added ++ rest) = scanFrom m (Step.texts steps ++ rest) := by
  induction steps generalizing d with
  | nil =>
      obtain rfl : d = d' := by simpa [Desk.play?] using h
      exact ⟨[], by simp, by simp [Step.texts]⟩
  | cons step steps ih =>
      obtain ⟨hstep, hsteps⟩ := List.forall_mem_cons.mp hinline
      obtain ⟨mid, hmid, hplay⟩ : ∃ mid, d.step? step = some mid ∧ mid.play? steps = some d' := by
        simpa [Desk.play?, List.foldlM_cons, Option.bind_eq_some_iff] using h
      obtain ⟨added, hout, hscan⟩ := ih hsteps hplay
      have htexts : Step.texts (step :: steps) = step.text ++ Step.texts steps := rfl
      have hsame : step.text = [] → mid.writer.out = d.writer.out →
          mid.writer.atLineStart = d.writer.atLineStart → ∃ added : List Char,
            d'.writer.out.toList = d.writer.out.toList ++ added ∧
              ∀ m, (d.writer.atLineStart = true → m = .between) → ∀ rest,
                scanFrom m (added ++ rest) = scanFrom m (Step.texts (step :: steps) ++ rest) := by
        intro htext hout' hline'
        refine ⟨added, by rw [hout, hout'], fun m hm rest => ?_⟩
        rw [htexts, htext]
        exact hscan m (hline' ▸ hm) rest
      cases step with
      | put code =>
          obtain rfl := Option.some.inj hmid
          obtain ⟨margin, htabs, hmargin, hwritten, hline⟩ :=
            Writer.out_write_code code d.writer
          by_cases hempty : code.text = ""
          · obtain rfl := hmargin (.inr hempty)
            refine hsame (by simp [Step.text, hempty]) ?_ (by simpa [hempty] using hline)
            exact String.toList_inj.mp (by simpa [hempty] using hwritten)
          · refine ⟨margin ++ code.text.toList ++ added, by simp [hout, hwritten],
              fun m hm rest => ?_⟩
            have hrest : ∀ m, scanFrom m (added ++ rest) =
                scanFrom m (Step.texts steps ++ rest) := fun m =>
              hscan m (by simp [hline, hempty]) rest
            have hcode := scanFrom_congr hrest code.text.toList m
            have hskip : scanFrom m (margin ++ (code.text.toList ++ (added ++ rest))) =
                scanFrom m (code.text.toList ++ (added ++ rest)) := by
              cases hstart : d.writer.atLineStart with
              | true =>
                  rw [hm hstart]
                  exact scanFrom_space (fun c hc => by simp [htabs c hc]) _
              | false =>
                  rw [hmargin (.inl hstart)]
                  rfl
            simpa [htexts, Step.text] using hskip.trans hcode
      | newline =>
          obtain rfl := Option.some.inj hmid
          refine ⟨'\n' :: added, by simpa [Writer.newline] using hout, fun m _ rest => ?_⟩
          exact scanFrom_newline (hscan .between (fun _ => rfl) rest) m
      | indent =>
          obtain rfl := Option.some.inj hmid
          exact hsame rfl rfl rfl
      | dedent =>
          obtain ⟨w, hw, rfl⟩ := Option.map_eq_some_iff.mp hmid
          unfold Writer.dedent? at hw
          split_ifs at hw
          obtain rfl := Option.some.inj hw
          exact hsame rfl rfl rfl
      | note notice =>
          obtain rfl := Option.some.inj hmid
          exact hsame rfl rfl rfl
      | _ => simp [Step.isInline] at hstep

end Emitter
