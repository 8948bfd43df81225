import Emitter.Proofs.Whole.Lines

/-!
# Lines of code in a text

Code that an emission puts between two line ends stands as a line in its text, behind the margin it
was put at, and so it does in every text that is put together from such texts.
-/

namespace Emitter

open Layout Program Text

/-- The code in front of each line end. The first line goes on from the given code. -/
def Step.codeLines : Code → List Step → List Code
  | _, [] => []
  | start, .put code :: rest => codeLines (start ++ code) rest
  | start, .newline :: rest => start :: codeLines [] rest
  | start, .lines text :: rest => codeLines (if (linesOf text).isEmpty then start else []) rest
  | start, _ :: rest => codeLines start rest

/-- The lines of code that an emission prints. -/
def Emit.codeLines {α : Type} (e : Emit α) : List Code := Step.codeLines [] e.steps

theorem Step.codeLines_flatMap {α : Type} (f : α → Code) (items : List α) (rest : List Step) :
    codeLines [] ((items.flatMap fun item => [Step.put (f item), Step.newline]) ++ rest) =
      items.map f ++ codeLines [] rest := by
  induction items with
  | nil => rfl
  | cons item others ih => simpa [codeLines] using ih

/-- The text has the line, behind a margin. -/
def HasLine (text line : String) : Prop :=
  ∃ before levels after, EndsLine before ∧
    text = before ++ Writer.margin levels ++ line ++ "\n" ++ after

namespace HasLine

variable {text line : String}

theorem append (h : HasLine text line) (more : String) : HasLine (text ++ more) line := by
  obtain ⟨before, levels, after, hbefore, rfl⟩ := h
  exact ⟨before, levels, after ++ more, hbefore, by simp [String.append_assoc]⟩

theorem behind (h : HasLine text line) {front : String} (hfront : EndsLine front) :
    HasLine (front ++ text) line := by
  obtain ⟨before, levels, after, hbefore, rfl⟩ := h
  exact ⟨front ++ before, levels, after, hfront.append hbefore, by simp [String.append_assoc]⟩

end HasLine

theorem exists_trimmed (text : String) : ∃ front, (∀ c ∈ front.toList, c = '\n') ∧
    text = front ++ trimmed text := by
  refine ⟨String.ofList (text.toList.takeWhile (· = '\n')), fun c hc => ?_, ?_⟩
  · rw [String.toList_ofList] at hc
    have hnewline := List.mem_takeWhile_imp hc
    simpa using hnewline
  · exact String.toList_inj.mp (by simp [trimmed, List.takeWhile_append_dropWhile])

theorem EndsLine.trimmed {text : String} (h : EndsLine text) : EndsLine (trimmed text) := by
  obtain ⟨front, -, htext⟩ := exists_trimmed text
  rcases h with rfl | h
  · exact .inl rfl
  · by_cases hempty : Emitter.trimmed text = ""
    · exact .inl hempty
    · refine .inr ?_
      rw [htext, String.toList_append, List.getLast?_append_of_ne_nil _
        (by simpa using hempty)] at h
      exact h

theorem trimmed_append_of_newlines {front : String} (h : ∀ c ∈ front.toList, c = '\n')
    (text : String) : trimmed (front ++ text) = trimmed text := by
  have hdrop : front.toList.dropWhile (· = '\n') = [] :=
    List.dropWhile_eq_nil_iff.mpr fun c hc => by simpa using h c hc
  simp [trimmed, List.dropWhile_append, hdrop]

theorem trimmed_margin {line : String} (h : trimmed line = line) (levels : Nat) :
    trimmed (Writer.margin levels ++ line) = Writer.margin levels ++ line := by
  cases levels with
  | zero => simpa [Writer.margin] using h
  | succ levels => simp [trimmed, Writer.margin, List.replicate_succ, String.append_assoc]

namespace HasLine

variable {text line : String}

theorem trimmed_line (h : HasLine text line) : HasLine text (trimmed line) := by
  obtain ⟨before, levels, after, hbefore, rfl⟩ := h
  obtain ⟨ends, hends, hline⟩ := exists_trimmed line
  by_cases hempty : ends = ""
  · exact ⟨before, levels, after, hbefore, by
      rw [hempty, String.empty_append] at hline
      rw [← hline]⟩
  · have hlast : ends.toList.getLast? = some '\n' := by
      have hne : ends.toList ≠ [] := fun h => hempty (String.toList_eq_nil_iff.mp h)
      obtain ⟨c, hc⟩ := Option.isSome_iff_exists.mp (List.getLast?_isSome.mpr hne)
      rw [hc, hends c (List.mem_of_getLast? hc)]
    refine ⟨before ++ Writer.margin levels ++ ends, 0, after, .inr (by simp [hlast]), ?_⟩
    conv_lhs => rw [hline]
    simp [Writer.margin, String.append_assoc]

/-- A line that does not start with a line end stays when line ends in front of the text go. -/
theorem trimmed_text (h : HasLine text line) (hne : line ≠ "") (hline : trimmed line = line) :
    HasLine (trimmed text) line := by
  obtain ⟨before, levels, after, hbefore, rfl⟩ := h
  obtain ⟨ends, hends, hsplit⟩ := exists_trimmed before
  have hmargin := trimmed_margin hline levels
  have hdrop : trimmed (before ++ Writer.margin levels ++ line ++ "\n" ++ after) =
      trimmed (trimmed before ++ (Writer.margin levels ++ line ++ "\n" ++ after)) := by
    conv_lhs => rw [hsplit]
    simp only [String.append_assoc]
    exact trimmed_append_of_newlines hends _
  rw [hdrop]
  by_cases hempty : trimmed before = ""
  · have hlast : Writer.margin levels ++ line ≠ "" :=
      fun h => hne (String.append_eq_empty_iff.mp h).2
    refine ⟨"", levels, after, .inl rfl, ?_⟩
    rw [hempty, String.empty_append, String.append_assoc, trimmed_append hlast hmargin]
    simp [String.append_assoc]
  · rw [trimmed_append hempty (trimmed_trimmed before)]
    exact ⟨trimmed before, levels, after, hbefore.trimmed, by simp [String.append_assoc]⟩

/-- Line ends in front of a text are none of its lines. -/
theorem trim (h : HasLine text line) (hne : trimmed line ≠ "") :
    HasLine (trimmed text) (trimmed line) :=
  h.trimmed_line.trimmed_text hne (trimmed_trimmed line)

end HasLine

namespace Spread

variable {front back : List String} {text line contents : String}

/-- What comes in front of a text and what comes behind it. -/
theorem split (h : Spread (front ++ text :: back) contents) : ∃ before after,
    contents = before ++ text ++ after ∧ Spread front before ∧ Spread back after := by
  generalize htexts : front ++ text :: back = texts at h
  induction h generalizing front with
  | nil => simp at htexts
  | newline h ih =>
      obtain ⟨before, after, rfl, hfront, hback⟩ := ih htexts
      exact ⟨"\n" ++ before, after, by simp [String.append_assoc], hfront.newline, hback⟩
  | text first h ih =>
      cases front with
      | nil =>
          obtain ⟨rfl, rfl⟩ := List.cons.inj htexts
          exact ⟨"", _, by simp, .nil, h⟩
      | cons t front =>
          obtain ⟨rfl, hrest⟩ := List.cons.inj htexts
          obtain ⟨before, after, rfl, hfront, hback⟩ := ih hrest
          exact ⟨t ++ before, after, by simp [String.append_assoc], hfront.text t, hback⟩

theorem endsLine {texts : List String} (h : Spread texts contents)
    (htexts : ∀ text ∈ texts, EndsLine text) : EndsLine contents := by
  induction h with
  | nil => exact .inl rfl
  | newline h ih => exact EndsLine.append (.inr rfl) (ih htexts)
  | text t h ih =>
      obtain ⟨ht, hrest⟩ := List.forall_mem_cons.mp htexts
      exact ht.append (ih hrest)

theorem hasLine {texts : List String} (h : Spread texts contents)
    (htexts : ∀ text ∈ texts, EndsLine text) (hmem : text ∈ texts) (hline : HasLine text line) :
    HasLine contents line := by
  obtain ⟨front, back, rfl⟩ := List.append_of_mem hmem
  obtain ⟨before, after, rfl, hfront, -⟩ := h.split
  exact (hline.behind (hfront.endsLine fun text ht =>
    htexts text (List.mem_append_left _ ht))).append after

end Spread

namespace Layout.Writer

/-- The buffer ends with the text, which has begun a line unless it is empty. -/
def Holds (w : Writer) (text : String) : Prop :=
  ∃ before, EndsLine before ∧ ((w.atLineStart = true ∧ text = "" ∧ w.out = before) ∨
    w.atLineStart = false ∧ ∃ levels, w.out = before ++ margin levels ++ text)

variable {w : Writer} {text : String}

theorem Holds.write (h : w.Holds text) (more : String) : (w.write more).Holds (text ++ more) := by
  unfold Writer.write
  obtain ⟨before, hbefore, ⟨hstart, rfl, hout⟩ | ⟨hstart, levels, hout⟩⟩ := h
  · split_ifs with hempty
    · exact ⟨before, hbefore, .inl ⟨hstart, by simp [hempty], hout⟩⟩
    · exact ⟨before, hbefore, .inr ⟨rfl, w.indent, by simp [hout]⟩⟩
  · split_ifs with hempty
    · exact ⟨before, hbefore, .inr ⟨hstart, levels, by simp [hout, hempty]⟩⟩
    · exact absurd ‹w.atLineStart = true› (by simp [hstart])
    · exact ⟨before, hbefore, .inr ⟨hstart, levels, by simp [hout, String.append_assoc]⟩⟩

theorem Holds.writeCode (h : w.Holds text) (code : Code) :
    (code.foldl (fun w l => w.write l.text) w).Holds (text ++ code.text) := by
  induction code generalizing w text with
  | nil => simpa [Code.text] using h
  | cons l rest ih =>
      have hsplit : Code.text (l :: rest) = l.text ++ Code.text rest :=
        String.toList_inj.mp (by simp [Code.toList_text])
      rw [hsplit, ← String.append_assoc]
      exact ih (h.write l.text)

theorem Holds.newline (h : w.Holds text) : w.newline.Holds "" ∧ HasLine w.newline.out text := by
  refine ⟨⟨_, .inr (by simp [Writer.newline]), .inl ⟨rfl, rfl, rfl⟩⟩, ?_⟩
  obtain ⟨before, hbefore, ⟨-, rfl, rfl⟩ | ⟨-, levels, hout⟩⟩ := h
  · exact ⟨w.out, 0, "", hbefore, by simp [Writer.newline, margin]⟩
  · exact ⟨before, levels, "", hbefore, by simp [Writer.newline, hout]⟩

theorem Holds.writeLines (h : w.Holds text) (more : String) :
    (w.writeLines more).Holds (if (linesOf more).isEmpty then text else "") := by
  unfold Writer.writeLines
  generalize linesOf more = lines
  induction lines generalizing w text with
  | nil => exact h
  | cons l rest ih =>
      have hnext : (w.writeLine l).Holds "" := (h.write l).newline.1
      simpa using ih hnext

end Layout.Writer

namespace Desk

variable {steps : List Step} {d d' : Desk}

/-- Where a file goes on, nothing of it is taken back. -/
theorem exists_added (hstay : ∀ step ∈ steps, step.staysInFile = true)
    (h : d.play? steps = some d') : ∃ added, d'.writer.out = d.writer.out ++ added := by
  rcases Step.uniform hstay d.writer.indent d.writer.atLineStart with ⟨added, indent, hall⟩ | hnone
  · obtain ⟨notices, hplay⟩ := hall d.writer d.notices ⟨rfl, rfl⟩
    obtain rfl : _ = d' := Option.some.inj (hplay.symm.trans h)
    exact ⟨added, rfl⟩
  · have hstuck := hnone d.writer d.notices ⟨rfl, rfl⟩
    rw [show (⟨d.writer, d.notices⟩ : Desk) = d from rfl, h] at hstuck
    cases hstuck

/-- Where a file goes on, the lines of code stand in it. -/
theorem hasLine_of_play {start line : Code} (hstay : ∀ step ∈ steps, step.staysInFile = true)
    (h : d.play? steps = some d') (hd : d.writer.Holds start.text)
    (hline : line ∈ Step.codeLines start steps) : HasLine d'.writer.out line.text := by
  induction steps generalizing d start with
  | nil => simp [Step.codeLines] at hline
  | cons step rest ih =>
      obtain ⟨hstep, hrest⟩ := List.forall_mem_cons.mp hstay
      obtain ⟨mid, hmid, h⟩ : ∃ mid, d.step? step = some mid ∧ mid.play? rest = some d' := by
        simpa [play?, List.foldlM_cons, Option.bind_eq_some_iff] using h
      cases step with
      | put code =>
          obtain rfl := Option.some.inj hmid
          exact ih hrest h (by simpa using hd.writeCode code) hline
      | newline =>
          obtain rfl := Option.some.inj hmid
          obtain ⟨hnext, hhas⟩ := hd.newline
          rcases List.mem_cons.mp hline with rfl | hline
          · obtain ⟨added, hadded⟩ := exists_added hrest h
            rw [hadded]
            exact hhas.append added
          · exact @ih _ [] hrest h hnext hline
      | lines text =>
          obtain rfl := Option.some.inj hmid
          refine ih hrest h ?_ hline
          have hnext := hd.writeLines text
          split_ifs at hnext ⊢
          · exact hnext
          · exact hnext
      | indent | note =>
          obtain rfl := Option.some.inj hmid
          exact ih hrest h hd hline
      | dedent =>
          obtain ⟨w, hw, rfl⟩ := Option.map_eq_some_iff.mp hmid
          unfold Writer.dedent? at hw
          split_ifs at hw
          obtain rfl := Option.some.inj hw
          exact ih hrest h hd hline
      | _ => simp [Step.staysInFile] at hstep

end Desk

/-- The lines of code of an emission stand in its text. -/
theorem Emit.hasLine_text {α : Type} {e : Emit α} {text : String} {line : Code}
    (hstay : ∀ step ∈ e.steps, step.staysInFile = true) (h : e.PrintsText text)
    (hline : line ∈ e.codeLines) : HasLine text line.text := by
  obtain ⟨notices, hplay⟩ := h.plays .new [] ⟨rfl, rfl⟩
  have hstart : Writer.new.Holds (Code.text []) := ⟨"", .inl rfl, .inl ⟨rfl, rfl, rfl⟩⟩
  simpa [Writer.further, Writer.new] using Desk.hasLine_of_play hstay hplay hstart hline

end Emitter
