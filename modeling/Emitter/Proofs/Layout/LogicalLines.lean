import Emitter.Proofs.Layout.LineStarts

/-!
# The logical lines of a file

What calls put into a file can be told without the state of a writer: the texts, the ends of lines
and the moves of the margin that the calls stand for are cut into lines at the ends. A line begins
with as many tabs as the margin has levels where its first text that is not empty is written. So
neither the way a line's text is cut into pieces nor empty pieces make a difference.
-/

namespace Emitter.Layout.Writer

open Text

/-- What a call does to the lines of a file. -/
inductive LineEvent
  | text (text : String)
  | lineEnd
  | deeper
  | shallower
  deriving DecidableEq

def Call.events : Call → List LineEvent
  | .write text => [.text text]
  | .writeChar c => [.text (String.singleton c)]
  | .newline => [.lineEnd]
  | .writeLine text => [.text text, .lineEnd]
  | .writeLines text => (linesOf text).flatMap fun line => [.text line, .lineEnd]
  | .indentMore => [.deeper]
  | .dedent => [.shallower]
  | .openBlock => [.text "\x7b", .lineEnd, .deeper]
  | .closeBlock => [.shallower, .text "\x7d", .lineEnd]
  | .writeRaw _ | .beginSection | .endSection | .createFile _ | .closeFile | .takeFiles
  | .reset => []

/-- The call writes lines, with no line feed within one, or moves the margin. -/
def Call.WritesLines : Call → Prop
  | .write text | .writeLine text => '\n' ∉ text.toList
  | .writeChar c => c ≠ '\n'
  | .newline | .writeLines _ => True
  | .indentMore | .dedent | .openBlock | .closeBlock => True
  | .writeRaw _ | .beginSection | .endSection | .createFile _ | .closeFile => False
  | .takeFiles | .reset => False

/-- The texts that are written to a line, each with the margin in force. -/
abbrev LogicalLine := List (ℕ × String)

/-- As many tabs as the margin has at the first text that is not empty, then the texts. A line
without any has no tabs. -/
def LogicalLine.text (line : LogicalLine) : String :=
  ((line.find? (·.2 ≠ "")).elim "" fun first => margin first.1) ++ String.join (line.map (·.2))

/-- The lines of a file from a line that has begun at a margin. The last one may have no end. -/
def linesBehind : ℕ → LogicalLine → List LineEvent → List LogicalLine
  | _, line, [] => [line]
  | level, line, .text text :: rest => linesBehind level (line ++ [(level, text)]) rest
  | level, line, .lineEnd :: rest => line :: linesBehind level [] rest
  | level, line, .deeper :: rest => linesBehind (level + 1) line rest
  | level, line, .shallower :: rest => linesBehind (level - 1) line rest

/-- The logical lines that calls write to an empty file. -/
def logicalLines (calls : List Call) : List LogicalLine :=
  linesBehind 0 [] (calls.flatMap Call.events)

/-- A text is written in two pieces instead of one, or an empty text is written in addition. -/
inductive Respelled : List Call → List Call → Prop
  | split (before after : List Call) (first rest : String) :
      Respelled (before ++ .write (first ++ rest) :: after)
        (before ++ .write first :: .write rest :: after)
  | splitLine (before after : List Call) (first rest : String) :
      Respelled (before ++ .writeLine (first ++ rest) :: after)
        (before ++ .write first :: .writeLine rest :: after)
  | char (before after : List Call) (c : Char) :
      Respelled (before ++ .write (String.singleton c) :: after)
        (before ++ .writeChar c :: after)
  | empty (before after : List Call) : Respelled (before ++ after) (before ++ .write "" :: after)

/-- Carries an event out. -/
def event? (w : Writer) : LineEvent → Option Writer
  | .text text => some (w.write text)
  | .lineEnd => some w.newline
  | .deeper => some w.indentMore
  | .shallower => w.dedent?

variable {w w' : Writer} {call : Call} {calls : List Call} {answer : Answer}

theorem foldlM_event_lines (w : Writer) (lines : List String) :
    (lines.flatMap fun line => [LineEvent.text line, .lineEnd]).foldlM event? w =
      some (lines.foldl writeLine w) := by
  induction lines generalizing w with
  | nil => rfl
  | cons line lines ih => exact ih (w.writeLine line)

/-- A call does what its events do. -/
theorem foldlM_events (hcall : call.WritesLines) (h : w.perform call = some (answer, w')) :
    call.events.foldlM event? w = some w' := by
  cases call with
  | write | writeChar | newline | writeLine | indentMore | openBlock =>
      obtain ⟨-, rfl⟩ := Prod.mk.inj (Option.some.inj h)
      rfl
  | writeLines text =>
      obtain ⟨-, rfl⟩ := Prod.mk.inj (Option.some.inj h)
      exact foldlM_event_lines w (linesOf text)
  | dedent =>
      obtain ⟨lower, hlower, hw'⟩ := Option.map_eq_some_iff.mp h
      obtain ⟨-, rfl⟩ := Prod.mk.inj hw'
      exact congrArg (Option.bind · some) hlower
  | closeBlock =>
      obtain ⟨closed, hclosed, hw'⟩ := Option.map_eq_some_iff.mp h
      obtain ⟨lower, hlower, rfl⟩ := Option.map_eq_some_iff.mp hclosed
      obtain ⟨-, rfl⟩ := Prod.mk.inj hw'
      exact congrArg (Option.bind · fun lower => some (lower.writeLine "\x7d")) hlower
  | _ => exact hcall.elim

theorem foldlM_events_performAll (hcalls : ∀ call ∈ calls, call.WritesLines)
    {answers : List Answer} (h : w.performAll calls = some (answers, w')) :
    (calls.flatMap Call.events).foldlM event? w = some w' := by
  induction calls generalizing w answers with
  | nil =>
      obtain ⟨-, rfl⟩ := Prod.mk.inj (Option.some.inj h)
      rfl
  | cons call calls ih =>
      obtain ⟨hcall, hcalls⟩ := List.forall_mem_cons.mp hcalls
      obtain ⟨⟨answer, middle⟩, hmiddle, h⟩ := Option.bind_eq_some_iff.mp h
      obtain ⟨⟨answers', last⟩, hlast, h⟩ := Option.bind_eq_some_iff.mp h
      obtain ⟨-, rfl⟩ := Prod.mk.inj (Option.some.inj h)
      rw [List.flatMap_cons, List.foldlM_append, foldlM_events hcall hmiddle]
      exact ih hcalls hlast

/-- An event stays in the file. -/
theorem file_of_event {event : LineEvent} (h : w.event? event = some w') :
    w'.currentFile = w.currentFile ∧ w'.files = w.files := by
  cases event with
  | text text =>
      obtain rfl := Option.some.inj h
      unfold write
      split_ifs <;> exact ⟨rfl, rfl⟩
  | lineEnd | deeper =>
      obtain rfl := Option.some.inj h
      exact ⟨rfl, rfl⟩
  | shallower =>
      rw [dedent?_eq_some h]
      exact ⟨rfl, rfl⟩

/-! Texts without a line feed join into one line, whatever the levels are that they are written at.
The margin is that of the first text that is not empty. -/

namespace LogicalLine

variable {line : LogicalLine}

/-- All texts of the line are empty. -/
def isBlank (line : LogicalLine) : Bool := line.all (·.2 = "")

theorem text_eq_empty (h : line.isBlank = true) : line.text = "" := by
  have hblank : ∀ piece ∈ line, piece.2 = "" := by simpa [isBlank] using h
  have hnone : line.find? (·.2 ≠ "") = none := by simpa using hblank
  have hjoin : String.join (line.map (·.2)) = "" := by
    refine String.toList_eq_nil_iff.mp ?_
    simpa [String.toList_join] using fun text level => hblank (level, text)
  rw [LogicalLine.text, hnone, hjoin]
  rfl

theorem text_append_empty (line : LogicalLine) (level : ℕ) :
    LogicalLine.text (line ++ [(level, "")]) = line.text := by
  simp [LogicalLine.text, String.join_append]

/-- The first text that is not empty is put behind the margin. -/
theorem text_append_blank (h : line.isBlank = true) (level : ℕ) {text : String} (hne : text ≠ "") :
    LogicalLine.text (line ++ [(level, text)]) = margin level ++ text := by
  have hblank : ∀ piece ∈ line, piece.2 = "" := by simpa [isBlank] using h
  have hnone : line.find? (·.2 ≠ "") = none := by simpa using hblank
  have hempty := text_eq_empty h
  simp only [LogicalLine.text, hnone, Option.elim_none, String.empty_append] at hempty
  rw [LogicalLine.text, List.find?_append, hnone]
  simp [hne, String.join_append, hempty]

/-- Behind it, texts are put as they are. -/
theorem text_append (h : line.isBlank = false) (level : ℕ) (text : String) :
    LogicalLine.text (line ++ [(level, text)]) = line.text ++ text := by
  obtain ⟨first, hfirst⟩ : ∃ first, line.find? (·.2 ≠ "") = some first := by
    rw [← Option.isSome_iff_exists, List.find?_isSome]
    simpa [isBlank] using h
  rw [LogicalLine.text, LogicalLine.text, List.find?_append, hfirst]
  simp [String.join_append, String.append_assoc]

end LogicalLine

/-- The writer has put a line that is not ended behind a text. -/
structure WithinLine (w : Writer) (before : String) (level : ℕ) (line : LogicalLine) : Prop where
  out : w.out = before ++ line.text
  indent : w.indent = level
  start : w.atLineStart = line.isBlank

variable {before : String} {level : ℕ} {line : LogicalLine}

theorem WithinLine.text (h : w.WithinLine before level line) (text : String) :
    (w.write text).WithinLine before level (line ++ [(level, text)]) := by
  obtain ⟨hout, rfl, hstart⟩ := h
  by_cases hempty : text = ""
  · subst hempty
    refine ⟨?_, rfl, ?_⟩
    · simpa [write, LogicalLine.text_append_empty] using hout
    · simpa [write, LogicalLine.isBlank] using hstart
  · refine ⟨?_, indent_write w text, ?_⟩
    · rw [write_of_ne hempty]
      cases hblank : line.isBlank with
      | true =>
          rw [LogicalLine.text_append_blank hblank _ hempty]
          simp [hout, hstart, hblank, LogicalLine.text_eq_empty hblank, String.append_assoc]
      | false =>
          rw [LogicalLine.text_append hblank]
          simp [hout, hstart, hblank, String.append_assoc]
    · rw [write_of_ne hempty]
      simp [LogicalLine.isBlank, hempty]

theorem linesBehind_ne_nil (level : ℕ) (line : LogicalLine) (events : List LineEvent) :
    linesBehind level line events ≠ [] := by
  induction events generalizing level line with
  | nil => exact List.cons_ne_nil _ _
  | cons event events ih => cases event <;> first | exact List.cons_ne_nil _ _ | exact ih _ _

/-- The lines of the events stand behind the text, one line feed between any two. -/
theorem WithinLine.foldlM_events {events : List LineEvent} (h : w.WithinLine before level line)
    (hw' : events.foldlM event? w = some w') :
    w'.out = before ++ "\n".intercalate ((linesBehind level line events).map LogicalLine.text) ∧
      w'.currentFile = w.currentFile ∧ w'.files = w.files := by
  induction events generalizing w before level line with
  | nil =>
      obtain rfl := Option.some.inj hw'
      exact ⟨by simpa [linesBehind] using h.out, rfl, rfl⟩
  | cons event events ih =>
      obtain ⟨middle, hmiddle, hw'⟩ := Option.bind_eq_some_iff.mp hw'
      obtain ⟨hfile, hfiles⟩ := file_of_event hmiddle
      rw [← hfile, ← hfiles]
      cases event with
      | text text =>
          obtain rfl := Option.some.inj hmiddle
          exact ih (h.text text) hw'
      | lineEnd =>
          obtain rfl := Option.some.inj hmiddle
          have hnext : w.newline.WithinLine (before ++ line.text ++ "\n") level [] :=
            ⟨by simp [newline, h.out, LogicalLine.text], h.indent, rfl⟩
          obtain ⟨hout, hrest⟩ := ih hnext hw'
          refine ⟨?_, hrest⟩
          have hne := linesBehind_ne_nil level [] events
          rw [hout, linesBehind, List.map_cons,
            String.intercalate_cons_of_ne_nil (by simpa using hne)]
          simp [String.append_assoc]
      | deeper =>
          obtain rfl := Option.some.inj hmiddle
          exact ih ⟨h.out, congrArg (· + 1) h.indent, h.start⟩ hw'
      | shallower =>
          obtain rfl := dedent?_eq_some hmiddle
          exact ih ⟨h.out, congrArg (· - 1) h.indent, h.start⟩ hw'

theorem notMem_linesFrom {line cs : List Char} (h : '\n' ∉ line) :
    ∀ l ∈ linesFrom line cs, '\n' ∉ l := by
  induction cs generalizing line with
  | nil =>
      unfold linesFrom
      split_ifs <;> simp [h]
  | cons c cs ih =>
      unfold linesFrom
      split_ifs with hc
      · refine List.forall_mem_cons.mpr ⟨?_, ih (by simp)⟩
        unfold dropReturn
        split_ifs
        · exact fun hmem => h (List.mem_of_mem_dropLast hmem)
        · exact h
      · exact ih (by simp [h, Ne.symm hc])

theorem notMem_events (hcall : call.WritesLines) {text : String}
    (h : .text text ∈ call.events) : '\n' ∉ text.toList := by
  cases call with
  | write | writeLine =>
      obtain rfl : text = _ := by simpa [Call.events] using h
      exact hcall
  | writeChar c =>
      have hc : c ≠ '\n' := hcall
      obtain rfl : text = _ := by simpa [Call.events] using h
      simpa using hc.symm
  | writeLines lines =>
      obtain ⟨line, hline, htext⟩ := List.mem_flatMap.mp h
      obtain rfl : text = line := by simpa using htext
      obtain ⟨cs, hcs, rfl⟩ := List.mem_map.mp hline
      simpa using notMem_linesFrom (List.not_mem_nil) cs hcs
  | openBlock | closeBlock =>
      obtain rfl : text = _ := by simpa [Call.events] using h
      decide
  | newline | indentMore | dedent => simp [Call.events] at h
  | _ => exact hcall.elim

/-- Every text of a line is that of an event, unless it was in the line before. -/
theorem mem_linesBehind {events : List LineEvent} {next : LogicalLine}
    (hnext : next ∈ linesBehind level line events) :
    ∀ piece ∈ next, piece ∈ line ∨ .text piece.2 ∈ events := by
  induction events generalizing level line with
  | nil =>
      obtain rfl : next = line := by simpa [linesBehind] using hnext
      exact fun piece => .inl
  | cons event events ih =>
      intro piece hpiece
      cases event with
      | text text =>
          rcases ih hnext piece hpiece with hline | hevent
          · rcases List.mem_append.mp hline with hline | hpiece
            · exact .inl hline
            · obtain rfl := List.mem_singleton.mp hpiece
              exact .inr (by simp)
          · exact .inr (List.mem_cons_of_mem _ hevent)
      | lineEnd =>
          rcases List.mem_cons.mp hnext with rfl | hnext
          · exact .inl hpiece
          · exact .inr (List.mem_cons_of_mem _ ((ih hnext piece hpiece).resolve_left (by simp)))
      | deeper | shallower => exact (ih hnext piece hpiece).imp_right (List.mem_cons_of_mem _)

theorem notMem_logicalLines (hcalls : ∀ call ∈ calls, call.WritesLines) :
    ∀ line ∈ logicalLines calls, '\n' ∉ line.text.toList := by
  intro line hline hmem
  have hpieces : ∀ piece ∈ line, '\n' ∉ piece.2.toList := by
    intro piece hpiece
    have hevent := (mem_linesBehind hline piece hpiece).resolve_left (by simp)
    obtain ⟨call, hcall, hevent⟩ := List.mem_flatMap.mp hevent
    exact notMem_events (hcalls call hcall) hevent
  rw [LogicalLine.text, String.toList_append] at hmem
  rcases List.mem_append.mp hmem with hmargin | htexts
  · cases hfirst : line.find? (·.2 ≠ "") with
    | none =>
        rw [hfirst] at hmargin
        simp at hmargin
    | some first =>
        rw [hfirst] at hmargin
        simp [margin] at hmargin
  · obtain ⟨text, ⟨level, hpiece⟩, htext⟩ : ∃ text, (∃ level, (level, text) ∈ line) ∧
        '\n' ∈ text.toList := by
      simpa [String.toList_join] using htexts
    exact hpieces _ hpiece htext

theorem write_write (w : Writer) (first rest : String) :
    (w.write first).write rest = w.write (first ++ rest) := by
  by_cases hfirst : first = ""
  · simp [write, hfirst]
  by_cases hrest : rest = ""
  · simp [write, hrest]
  · have hboth : first ++ rest ≠ "" := fun h => hrest (String.append_eq_empty_iff.mp h).2
    simp [write_of_ne, hfirst, hrest, hboth, String.append_assoc]

theorem performAll_cons_map_snd (w : Writer) (call : Call) (rest : List Call) :
    (w.performAll (call :: rest)).map Prod.snd =
      (w.perform call).bind fun done => (done.2.performAll rest).map Prod.snd := by
  cases hcall : w.perform call with
  | none => simp [performAll, hcall]
  | some done => cases hrest : done.2.performAll rest <;> simp [performAll, hcall, hrest]

theorem performAll_append_map_snd (w : Writer) (first rest : List Call) :
    (w.performAll (first ++ rest)).map Prod.snd =
      (w.performAll first).bind fun done => (done.2.performAll rest).map Prod.snd := by
  rw [performAll_append]
  cases w.performAll first with
  | none => rfl
  | some done =>
      simp only [Option.bind_some]
      cases done.2.performAll rest <;> rfl

theorem Respelled.performAll_map_snd {calls' : List Call} (h : Respelled calls calls')
    (w : Writer) : (w.performAll calls).map Prod.snd = (w.performAll calls').map Prod.snd := by
  cases h with
  | split before after first rest =>
      simp [performAll_append_map_snd, performAll_cons_map_snd, perform, write_write]
  | splitLine before after first rest =>
      simp [performAll_append_map_snd, performAll_cons_map_snd, perform, writeLine, write_write]
  | char before after c =>
      simp [performAll_append_map_snd, performAll_cons_map_snd, perform, writeChar]
  | empty before after =>
      simp [performAll_append_map_snd, performAll_cons_map_snd, perform, write]

theorem Respelled.eqvGen_performAll {calls' : List Call}
    (h : Relation.EqvGen Respelled calls calls') (w : Writer) :
    (w.performAll calls).map Prod.snd = (w.performAll calls').map Prod.snd := by
  induction h with
  | rel _ _ h => exact h.performAll_map_snd w
  | refl => rfl
  | symm _ _ _ ih => exact ih.symm
  | trans _ _ _ _ _ ih ih' => exact ih.trans ih'

/-- The calls that write a file. -/
def fileCalls (path : Path) (calls : List Call) : List Call :=
  .createFile path :: (calls ++ [.closeFile])

theorem performAll_fileCalls_map_snd (w : Writer) (path : Path) (calls : List Call) :
    (w.performAll (fileCalls path calls)).map Prod.snd =
      (w.createFile? path).bind fun created =>
        ((created.performAll calls).map Prod.snd).bind closeFile? := by
  rw [fileCalls, performAll_cons_map_snd, perform]
  cases w.createFile? path with
  | none => rfl
  | some created =>
      simp only [Option.map_some, Option.bind_some, performAll_append_map_snd]
      cases created.performAll calls with
      | none => rfl
      | some done =>
          simp only [Option.map_some, Option.bind_some, performAll_singleton, perform]
          cases done.2.closeFile? <;> rfl

/-- What calls write between opening and closing a file is the file of their logical lines, with one
line feed between any two; no line feed is within a line. Writing a text in pieces, or empty texts
in addition, gives the same. -/
theorem contents_eq_logicalLines (hcalls : ∀ call ∈ calls, call.WritesLines) {path : Path}
    {answers : List Answer} (h : w.performAll (fileCalls path calls) = some (answers, w')) :
    w'.files =
        w.files ++ [⟨path, "\n".intercalate ((logicalLines calls).map LogicalLine.text)⟩] ∧
      (∀ line ∈ logicalLines calls, '\n' ∉ line.text.toList) ∧
      ∀ calls', Relation.EqvGen Respelled calls calls' →
        ∃ answers', w.performAll (fileCalls path calls') = some (answers', w') := by
  have hfile : (w.performAll (fileCalls path calls)).map Prod.snd = some w' := by simp [h]
  refine ⟨?_, notMem_logicalLines hcalls, fun calls' hcalls' => ?_⟩
  · rw [performAll_fileCalls_map_snd] at hfile
    obtain ⟨created, hcreated, hfile⟩ := Option.bind_eq_some_iff.mp hfile
    obtain ⟨written, hwritten, hclosed⟩ := Option.bind_eq_some_iff.mp hfile
    obtain ⟨⟨answers, _⟩, hperformed, rfl⟩ := Option.map_eq_some_iff.mp hwritten
    unfold createFile? at hcreated
    split_ifs at hcreated with hopen
    obtain rfl := Option.some.inj hcreated
    have hstart : WithinLine { w with
        out := "", indent := 0, atLineStart := true, currentFile := some path } "" 0 [] :=
      ⟨by simp [LogicalLine.text], rfl, rfl⟩
    obtain ⟨hout, hpath, hfiles⟩ :=
      hstart.foldlM_events (foldlM_events_performAll hcalls hperformed)
    unfold closeFile? at hclosed
    rw [hpath] at hclosed
    split_ifs at hclosed
    obtain rfl := Option.some.inj hclosed
    simp [hout, hfiles, logicalLines]
  · rw [performAll_fileCalls_map_snd] at hfile
    simp only [Respelled.eqvGen_performAll hcalls'] at hfile
    rw [← performAll_fileCalls_map_snd] at hfile
    obtain ⟨⟨answers', _⟩, hperformed, rfl⟩ := Option.map_eq_some_iff.mp hfile
    exact ⟨answers', hperformed⟩

/-- A line whose margin moves before and behind its first text, a blank line between moves of the
margin, and a text that is written in two pieces and an empty one. -/
theorem contents_eq_logicalLines_moved :
    let calls : List Call := [.write "f()", .newline, .openBlock, .write "", .indentMore,
      .write "a", .dedent, .writeLine "b", .newline, .writeLines "c\r\n\nd", .closeBlock,
      .write "end"]
    let calls' : List Call := [.write "f", .write "()", .newline, .openBlock, .write "",
      .indentMore, .write "a", .dedent, .writeLine "b", .newline, .writeLines "c\r\n\nd",
      .closeBlock, .write "end"]
    (∀ call ∈ calls, call.WritesLines) ∧ Relation.EqvGen Respelled calls calls' ∧
      ∃ answers answers' w', new.performAll (fileCalls ⟨"a.txt"⟩ calls) = some (answers, w') ∧
        new.performAll (fileCalls ⟨"a.txt"⟩ calls') = some (answers', w') ∧
        w'.files = [⟨⟨"a.txt"⟩, "f()\n\x7b\n\t\tab\n\n\tc\n\n\td\n\x7d\nend"⟩] := by
  intro calls calls'
  have hcalls : ∀ call ∈ calls, call.WritesLines := by simp [calls, Call.WritesLines]
  have hrespelled : Relation.EqvGen Respelled calls calls' :=
    .rel _ _ (Respelled.split [] _ "f" "()")
  obtain ⟨⟨answers, w'⟩, h⟩ : ∃ done, new.performAll (fileCalls ⟨"a.txt"⟩ calls) = some done :=
    Option.isSome_iff_exists.mp (by decide)
  obtain ⟨hfiles, -, hsame⟩ := contents_eq_logicalLines hcalls h
  obtain ⟨answers', h'⟩ := hsame calls' hrespelled
  have htext : "\n".intercalate ((logicalLines calls).map LogicalLine.text) =
      "f()\n\x7b\n\t\tab\n\n\tc\n\n\td\n\x7d\nend" := by decide
  rw [htext] at hfiles
  exact ⟨hcalls, hrespelled, answers, answers', w', h, h', hfiles⟩

end Emitter.Layout.Writer
