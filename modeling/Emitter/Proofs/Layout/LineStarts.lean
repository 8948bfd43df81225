import Emitter.Proofs.Layout.Sections
import Emitter.Proofs.Whole.Balance

/-!
# Where the margin is put

A writer remembers whether a line starts at the end of its buffer, and a section remembers it for
the buffer set aside. What is remembered agrees with the buffer itself, which is empty or ends in a
line feed, as long as no empty text is written as it is: that makes a line start wherever it is
written.
-/

namespace Emitter.Layout.Writer

open Text

/-- The call collects text in the current file: it writes, moves the margin, or begins or ends a
section. Texts that are written have no line feeds in them, unless they are written line by line or
as they are. -/
def Call.Collects : Call → Prop
  | .write text | .writeLine text => '\n' ∉ text.toList
  | .writeChar c => c ≠ '\n'
  | .newline | .writeLines _ | .writeRaw _ => True
  | .indentMore | .dedent | .openBlock | .closeBlock => True
  | .beginSection | .endSection => True
  | .createFile _ | .closeFile | .takeFiles | .reset => False

/-- No section is ended before it is begun. -/
def Nested (calls : List Call) : Prop :=
  ∀ first ∈ calls.inits, first.count .endSection ≤ first.count .beginSection

/-- The call leaves the current buffer as it is. -/
def Call.isBlank : Call → Bool
  | .write text | .writeLines text => text = ""
  | .indentMore | .dedent => true
  | _ => false

/-- The last call that put anything into a buffer, from calls in reverse order. The buffer is that
of the section so many levels out from the one the calls leave open. -/
def lastPut? : ℕ → List Call → Option Call
  | _, [] => none
  | depth, .endSection :: earlier => lastPut? (depth + 1) earlier
  | 0, .beginSection :: _ => none
  | depth + 1, .beginSection :: earlier => lastPut? depth earlier
  | 0, call :: earlier => if call.isBlank then lastPut? 0 earlier else some call
  | depth + 1, _ :: earlier => lastPut? (depth + 1) earlier

/-- The buffers, the current one first, each with whether a line starts at its end. -/
def buffers (w : Writer) : List (String × Bool) := (w.out, w.atLineStart) :: w.suspended

instance (text : String) : Decidable (EndsLine text) := inferInstanceAs (Decidable (_ ∨ _))

/-- A line starts at the end of a buffer exactly if it is empty or ends in a line feed, or if an
empty text, written as it is, was the last thing put into it. -/
def StartsLines (w : Writer) (earlier : List Call) : Prop :=
  ∀ depth buffer, w.buffers[depth]? = some buffer →
    (buffer.2 = true ↔ EndsLine buffer.1 ∨ lastPut? depth earlier = some (.writeRaw ""))

variable {w w' : Writer} {call : Call} {earlier calls : List Call} {answer : Answer}

/-- What a call does to the buffers if it begins and ends no section. -/
structure PutsBetween (call : Call) (w w' : Writer) : Prop where
  suspended : w'.suspended = w.suspended
  blank : call.isBlank = true → w'.out = w.out ∧ w'.atLineStart = w.atLineStart
  put : call.isBlank = false → (w'.atLineStart = true ↔ EndsLine w'.out ∨ call = .writeRaw "")

/-- A text that is not empty is written behind the margin, if a line starts. -/
theorem write_of_ne {text : String} (h : text ≠ "") (w : Writer) : w.write text =
    { w with
      out := w.out ++ (if w.atLineStart then margin w.indent else "") ++ text
      atLineStart := false } := by
  cases w with
  | mk out indent atLineStart => cases atLineStart <;> simp [write, h, String.append_assoc]

theorem not_endsLine_append {text : String} (hne : text ≠ "") (h : '\n' ∉ text.toList)
    (front : String) : ¬EndsLine (front ++ text) := by
  have hlist : text.toList ≠ [] := fun h => hne (String.toList_eq_nil_iff.mp h)
  rintro (hempty | hlast)
  · exact hne (String.append_eq_empty_iff.mp hempty).2
  · rw [String.toList_append, List.getLast?_append_of_ne_nil _ hlist] at hlast
    exact h (List.mem_of_getLast? hlast)

/-- A line that is ended leaves the next one to start. -/
theorem putsBetween_newline (hblank : call.isBlank = false) (hw' : w'.suspended = w.suspended) :
    PutsBetween call w w'.newline where
  suspended := hw'
  blank h := by simp [hblank] at h
  put _ := ⟨fun _ => .inl (.inr (by simp [newline])), fun _ => rfl⟩

theorem putsBetween_write {text : String} (hblank : call.isBlank = decide (text = ""))
    (hcall : call ≠ .writeRaw "") (h : '\n' ∉ text.toList) :
    PutsBetween call w (w.write text) where
  suspended := suspended_write w text
  blank hempty := by
    have htext : text = "" := by simpa [hblank] using hempty
    simp [write, htext]
  put hput := by
    have htext : text ≠ "" := by simpa [hblank] using hput
    rw [write_of_ne htext]
    simp [not_endsLine_append htext h, hcall]

theorem linesFrom_ne_nil {line cs : List Char} (h : line ≠ [] ∨ cs ≠ []) :
    linesFrom line cs ≠ [] := by
  induction cs generalizing line with
  | nil => simpa [linesFrom] using h
  | cons c cs ih =>
      unfold linesFrom
      split_ifs
      · exact List.cons_ne_nil _ _
      · exact ih (.inl (by simp))

theorem linesOf_ne_nil {text : String} (h : text ≠ "") : linesOf text ≠ [] := fun hlines =>
  linesFrom_ne_nil (.inr fun hlist => h (String.toList_eq_nil_iff.mp hlist))
    (List.map_eq_nil_iff.mp hlines)

theorem suspended_foldl_writeLine (w : Writer) (lines : List String) :
    (lines.foldl writeLine w).suspended = w.suspended := by
  induction lines generalizing w with
  | nil => rfl
  | cons line lines ih => exact (ih _).trans (suspended_write w line)

theorem putsBetween_writeLines (w : Writer) (text : String) :
    PutsBetween (.writeLines text) w (w.writeLines text) := by
  by_cases hempty : text = ""
  · subst hempty
    exact ⟨rfl, fun _ => ⟨rfl, rfl⟩, fun h => by simp [Call.isBlank] at h⟩
  · -- The last line is ended, whatever the lines before it are.
    obtain ⟨lines, line, hlines⟩ := List.eq_nil_or_concat (linesOf text) |>.resolve_left
      (linesOf_ne_nil hempty)
    have hlast : w.writeLines text = ((lines.foldl writeLine w).write line).newline := by
      simp [writeLines, hlines, writeLine]
    rw [hlast]
    exact putsBetween_newline (by simp [Call.isBlank, hempty])
      ((suspended_write _ line).trans (suspended_foldl_writeLine w lines))

theorem putsBetween_writeRaw (w : Writer) (text : String) :
    PutsBetween (.writeRaw text) w (w.writeRaw text) where
  suspended := rfl
  blank h := by simp [Call.isBlank] at h
  put _ := by
    by_cases htext : text = ""
    · simp [writeRaw, htext]
    · have hlist : text.toList ≠ [] := fun h => htext (String.toList_eq_nil_iff.mp h)
      simp [writeRaw, EndsLine, htext, List.getLast?_append_of_ne_nil _ hlist]

/-- A call that only moves the margin. -/
theorem putsBetween_margin (hblank : call.isBlank = true) (w : Writer) (indent : ℕ) :
    PutsBetween call w { w with indent } :=
  ⟨rfl, fun _ => ⟨rfl, rfl⟩, fun h => by simp [hblank] at h⟩

theorem dedent?_eq_some (h : w.dedent? = some w') : w' = { w with indent := w.indent - 1 } := by
  unfold dedent? at h
  split_ifs at h
  exact (Option.some.inj h).symm

theorem putsBetween_perform (hcall : call.Collects) (hbegin : call ≠ .beginSection)
    (hend : call ≠ .endSection) (h : w.perform call = some (answer, w')) :
    PutsBetween call w w' := by
  cases call with
  | write text =>
      obtain ⟨-, rfl⟩ := Prod.mk.inj (Option.some.inj h)
      exact putsBetween_write rfl nofun hcall
  | writeChar c =>
      obtain ⟨-, rfl⟩ := Prod.mk.inj (Option.some.inj h)
      have hc : c ≠ '\n' := hcall
      exact putsBetween_write (by simp [Call.isBlank]) nofun (by simpa using hc.symm)
  | newline =>
      obtain ⟨-, rfl⟩ := Prod.mk.inj (Option.some.inj h)
      exact putsBetween_newline rfl rfl
  | writeLine text =>
      obtain ⟨-, rfl⟩ := Prod.mk.inj (Option.some.inj h)
      exact putsBetween_newline rfl (suspended_write w text)
  | writeLines text =>
      obtain ⟨-, rfl⟩ := Prod.mk.inj (Option.some.inj h)
      exact putsBetween_writeLines w text
  | writeRaw text =>
      obtain ⟨-, rfl⟩ := Prod.mk.inj (Option.some.inj h)
      exact putsBetween_writeRaw w text
  | indentMore =>
      obtain ⟨-, rfl⟩ := Prod.mk.inj (Option.some.inj h)
      exact putsBetween_margin rfl w _
  | dedent =>
      obtain ⟨lower, hlower, hw'⟩ := Option.map_eq_some_iff.mp h
      obtain ⟨-, rfl⟩ := Prod.mk.inj hw'
      rw [dedent?_eq_some hlower]
      exact putsBetween_margin rfl w _
  | openBlock =>
      obtain ⟨-, rfl⟩ := Prod.mk.inj (Option.some.inj h)
      have hline : PutsBetween .openBlock w (w.write "\x7b").newline :=
        putsBetween_newline rfl (suspended_write w _)
      exact ⟨hline.suspended, hline.blank, hline.put⟩
  | closeBlock =>
      obtain ⟨closed, hclosed, hw'⟩ := Option.map_eq_some_iff.mp h
      obtain ⟨lower, hlower, rfl⟩ := Option.map_eq_some_iff.mp hclosed
      obtain ⟨-, rfl⟩ := Prod.mk.inj hw'
      refine putsBetween_newline rfl ((suspended_write lower _).trans ?_)
      rw [dedent?_eq_some hlower]
  | beginSection => exact absurd rfl hbegin
  | endSection => exact absurd rfl hend
  | createFile | closeFile | takeFiles | reset => exact hcall.elim

/-- The calls have as many sections open as there are buffers set aside. -/
def OpensSections (w : Writer) (earlier : List Call) : Prop :=
  w.suspended.length + earlier.count .endSection = earlier.count .beginSection

theorem lastPut?_zero (hbegin : call ≠ .beginSection) (hend : call ≠ .endSection) :
    lastPut? 0 (call :: earlier) = if call.isBlank then lastPut? 0 earlier else some call := by
  cases call <;> first | rfl | contradiction

theorem lastPut?_succ (hbegin : call ≠ .beginSection) (hend : call ≠ .endSection) (depth : ℕ) :
    lastPut? (depth + 1) (call :: earlier) = lastPut? (depth + 1) earlier := by
  cases call <;> first | rfl | contradiction

theorem StartsLines.put (h : w.StartsLines earlier) (hbegin : call ≠ .beginSection)
    (hend : call ≠ .endSection) (hput : PutsBetween call w w') :
    w'.StartsLines (call :: earlier) := by
  rintro (_ | depth) buffer hbuffer
  · obtain rfl : (w'.out, w'.atLineStart) = buffer := by simpa [buffers] using hbuffer
    rw [lastPut?_zero hbegin hend]
    cases hblank : call.isBlank with
    | true =>
        obtain ⟨hout, hstart⟩ := hput.blank hblank
        simpa [hout, hstart] using h 0 _ rfl
    | false => simpa using hput.put hblank
  · rw [lastPut?_succ hbegin hend]
    refine h (depth + 1) buffer ?_
    rw [← hbuffer]
    simp [buffers, hput.suspended]

theorem StartsLines.beginSection (h : w.StartsLines earlier) :
    w.beginSection.StartsLines (.beginSection :: earlier) := by
  rintro (_ | depth) buffer hbuffer
  · obtain rfl : ("", true) = buffer := by simpa [buffers, Writer.beginSection] using hbuffer
    exact ⟨fun _ => .inl (.inl rfl), fun _ => rfl⟩
  · exact h depth buffer hbuffer

theorem StartsLines.endSection (h : w.StartsLines earlier) (hopen : w.suspended ≠ []) :
    w.endSection.2.StartsLines (.endSection :: earlier) := by
  obtain ⟨outer, rest, hsuspended⟩ := List.exists_cons_of_ne_nil hopen
  have hbuffers : w.endSection.2.buffers = w.suspended := by
    simp [Writer.endSection, buffers, hsuspended]
  intro depth buffer hbuffer
  rw [hbuffers] at hbuffer
  exact h (depth + 1) buffer hbuffer

/-- One call keeps what is known of every buffer. -/
theorem startsLines_perform (hcall : call.Collects) (h : w.StartsLines earlier)
    (hopens : w.OpensSections earlier)
    (hcount : (call :: earlier).count .endSection ≤ (call :: earlier).count .beginSection)
    (hw' : w.perform call = some (answer, w')) :
    w'.StartsLines (call :: earlier) ∧ w'.OpensSections (call :: earlier) := by
  unfold OpensSections at hopens ⊢
  by_cases hbegin : call = .beginSection
  · subst hbegin
    obtain ⟨-, rfl⟩ := Prod.mk.inj (Option.some.inj hw')
    exact ⟨h.beginSection, by simp [Writer.beginSection]; omega⟩
  by_cases hend : call = .endSection
  · subst hend
    obtain ⟨-, rfl⟩ := Prod.mk.inj (Option.some.inj hw')
    simp only [List.count_cons_self, List.count_cons_of_ne hbegin] at hcount ⊢
    have hlength : 0 < w.suspended.length := by omega
    refine ⟨h.endSection (List.ne_nil_of_length_pos hlength), ?_⟩
    simp only [Writer.endSection, List.length_tail]
    omega
  · have hput := putsBetween_perform hcall hbegin hend hw'
    rw [List.count_cons_of_ne hbegin, List.count_cons_of_ne hend, hput.suspended]
    exact ⟨h.put hbegin hend hput, hopens⟩

theorem performAll_concat (w : Writer) (calls : List Call) (call : Call) :
    w.performAll (calls ++ [call]) = (w.performAll calls).bind fun done =>
      (done.2.perform call).map fun last => (done.1 ++ [last.1], last.2) := by
  simp [performAll_append, performAll_singleton, Function.comp_def]

/-- In every state that calls lead to. -/
theorem startsLines_performAll {calls : List Call} (hcalls : ∀ call ∈ calls, call.Collects)
    (hnested : Nested calls) {answers : List Answer}
    (h : new.performAll calls = some (answers, w)) :
    w.StartsLines calls.reverse ∧ w.OpensSections calls.reverse := by
  induction calls using List.reverseRecOn generalizing answers w with
  | nil =>
      obtain ⟨-, rfl⟩ := Prod.mk.inj (Option.some.inj h)
      refine ⟨?_, rfl⟩
      rintro (_ | depth) buffer hbuffer
      · obtain rfl : ("", true) = buffer := by simpa [buffers, new] using hbuffer
        exact ⟨fun _ => .inl (.inl rfl), fun _ => rfl⟩
      · simp [buffers, new] at hbuffer
  | append_singleton calls call ih =>
      rw [performAll_concat] at h
      obtain ⟨⟨answers', before⟩, hbefore, h⟩ := Option.bind_eq_some_iff.mp h
      obtain ⟨⟨answer, after⟩, hcall, h⟩ := Option.map_eq_some_iff.mp h
      obtain ⟨-, rfl⟩ := Prod.mk.inj h
      have hfirst : Nested calls := fun first hfirst => hnested first
        (List.mem_inits _ _ |>.mpr ((List.mem_inits _ _ |>.mp hfirst).trans
          (List.prefix_append _ _)))
      obtain ⟨hlines, hopens⟩ := ih (fun call h => hcalls call (List.mem_append_left _ h)) hfirst
        hbefore
      have hcount := hnested (calls ++ [call]) (by simp)
      rw [List.reverse_concat]
      refine startsLines_perform (hcalls call (by simp)) hlines hopens ?_ hcall
      simpa [List.count_cons, List.count_append] using hcount

theorem writeRaw_writeRaw_iff (w : Writer) (first rest : String) :
    (w.writeRaw first).writeRaw rest = w.writeRaw (first ++ rest) ↔
      (rest = "" → EndsLine first) := by
  by_cases hrest : rest = ""
  · subst hrest
    unfold EndsLine
    simp [writeRaw]
  · have hlist : rest.toList ≠ [] := fun h => hrest (String.toList_eq_nil_iff.mp h)
    simp [writeRaw, hrest, String.append_assoc, List.getLast?_append_of_ne_nil _ hlist]

/-- In every state that calls lead to from a new writer, the next text gets the margin in front
exactly if the current buffer is empty or ends in a line feed, or if an empty text, written as it
is, was the last thing put into it. Texts that are written as they are can be put together, unless
the second one is empty where no line starts. -/
theorem writes_margin_iff {calls : List Call} (hcalls : ∀ call ∈ calls, call.Collects)
    (hnested : Nested calls) {answers : List Answer}
    (h : new.performAll calls = some (answers, w)) :
    (w.atLineStart = true ↔
      EndsLine w.out ∨ lastPut? 0 calls.reverse = some (.writeRaw "")) ∧
    (∀ text ≠ "", (w.write text).out =
      w.out ++ (if w.atLineStart then margin w.indent else "") ++ text) ∧
    ∀ first rest, (w.writeRaw first).writeRaw rest = w.writeRaw (first ++ rest) ↔
      (rest = "" → EndsLine first) := by
  refine ⟨(startsLines_performAll hcalls hnested h).1 0 _ rfl, fun text htext => ?_,
    fun first rest => ?_⟩
  · rw [write_of_ne htext]
  · exact writeRaw_writeRaw_iff w first rest

/-- A section that is written later, an empty one among it, and an empty text behind a line feed. -/
theorem writes_margin_iff_section :
    let calls : List Call := [.openBlock, .beginSection, .write "body", .beginSection, .write "",
      .endSection, .newline, .endSection, .writeRaw "\tbody\n", .writeRaw "", .beginSection,
      .writeLines "a\nb", .write "c"]
    (∀ call ∈ calls, call.Collects) ∧ Nested calls ∧
      ∃ answers w, new.performAll calls = some (answers, w) ∧ w.atLineStart = false ∧
        (w.atLineStart = true ↔
          EndsLine w.out ∨ lastPut? 0 calls.reverse = some (.writeRaw "")) ∧
        (w.write "d").out = "\ta\n\tb\n\tcd" := by
  intro calls
  have hcalls : ∀ call ∈ calls, call.Collects := by
    simp [calls, Call.Collects]
  have hnested : Nested calls := by
    unfold Nested
    decide
  exact ⟨hcalls, hnested, _, _, rfl, by decide, (writes_margin_iff hcalls hnested rfl).1, by decide⟩

/-- Behind an empty text that is written as it is, the margin is put in the middle of a line, and
two texts are not written as the two together. -/
theorem writes_margin_within_line :
    let calls : List Call := [.indentMore, .write "x", .writeRaw ""]
    (∀ call ∈ calls, call.Collects) ∧ Nested calls ∧
      ∃ answers w, new.performAll calls = some (answers, w) ∧ ¬EndsLine w.out ∧
        w.atLineStart = true ∧ (w.write "y").out = w.out ++ margin w.indent ++ "y" ∧
        (w.writeRaw "x").writeRaw "" ≠ w.writeRaw ("x" ++ "") := by
  intro calls
  have hcalls : ∀ call ∈ calls, call.Collects := by
    simp [calls, Call.Collects]
  have hnested : Nested calls := by
    unfold Nested
    decide
  exact ⟨hcalls, hnested, _, _, rfl, by decide⟩

end Emitter.Layout.Writer
