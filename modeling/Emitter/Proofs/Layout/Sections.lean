import Emitter.Proofs.Whole.Lines

/-!
# Sections that are written later

Text that is collected in a section and then written as it is leaves a writer where the same calls
without the section leave it, if a line starts there. The calls add the same text to the section as
they do to the buffer, and whether a line starts behind that text can be seen from the text alone.
-/

namespace Emitter.Layout.Writer

open Text

/-- Carries calls out one after the other, with what they hand back. -/
def performAll (w : Writer) : List Call → Option (List Answer × Writer)
  | [] => some ([], w)
  | call :: rest => do
    let (answer, w') ← w.perform call
    let (answers, w'') ← w'.performAll rest
    return (answer :: answers, w'')

/-- Carries the calls out in a section, and writes the text of the section as it is. -/
def defer (w : Writer) (calls : List Call) : Option (List Answer × Writer) := do
  let (answers, w') ← w.beginSection.performAll calls
  let (text, outer) := w'.endSection
  return (answers, outer.writeRaw text)

/-- The call writes to the current file and section. It puts no line feed into a line, and writes no
text as it is that is empty. -/
def Call.WritesOn : Call → Prop
  | .write text => '\n' ∉ text.toList
  | .writeChar c => c ≠ '\n'
  | .writeRaw text => text ≠ ""
  | .newline | .writeLine _ | .writeLines _ => True
  | .indentMore | .dedent | .openBlock | .closeBlock => True
  | _ => False

/-- Calls that write on, with sections between them that are ended again. -/
inductive WriteOn : List Call → Prop
  | nil : WriteOn []
  | call {call : Call} {rest : List Call} (h : call.WritesOn) (hrest : WriteOn rest) :
      WriteOn (call :: rest)
  | nest {inner rest : List Call} (h : WriteOn inner) (hrest : WriteOn rest) :
      WriteOn (.beginSection :: (inner ++ .endSection :: rest))

/-- Whether a line starts behind the text, if one does or does not start in front of it. -/
def startsBehind (start : Bool) (text : String) : Bool :=
  if text = "" then start else text.toList.getLast? = some '\n'

@[simp] theorem startsBehind_empty (start : Bool) : startsBehind start "" = start := rfl

theorem startsBehind_of_ne {text : String} (h : text ≠ "") (start : Bool) :
    startsBehind start text = decide (text.toList.getLast? = some '\n') := if_neg h

theorem startsBehind_newline (start : Bool) (text : String) :
    startsBehind start (text ++ "\n") = true := by
  simp [startsBehind]

theorem startsBehind_append (start : Bool) (first rest : String) :
    startsBehind (startsBehind start first) rest = startsBehind start (first ++ rest) := by
  by_cases hrest : rest = ""
  · simp [hrest]
  · have hlist : rest.toList ≠ [] := fun h => hrest (String.toList_eq_nil_iff.mp h)
    have hne : first ++ rest ≠ "" := fun h => hrest (String.append_eq_empty_iff.mp h).2
    rw [startsBehind_of_ne hrest, startsBehind_of_ne hne, String.toList_append,
      List.getLast?_append_of_ne_nil _ hlist]

/-- Behind text that is written as it is, a line starts as it does behind that text at the start of
a line. -/
theorem writeRaw_eq (w : Writer) (text : String) :
    w.writeRaw text = w.further text w.indent (startsBehind true text) := by
  by_cases htext : text = ""
  · simp [writeRaw, further, htext]
  · simp [writeRaw, further, startsBehind_of_ne htext, htext]

variable {w : Writer} {indent : Nat} {start : Bool}

theorem endSection_further (w : Writer) (added : String) (indent : Nat) (start : Bool) :
    (w.beginSection.further added indent start).endSection =
      (added, { w with indent := indent }) := by
  simp [beginSection, further, endSection]

/-- From every writer at the margin the calls add the same text and answer the same, and a line
starts behind the text where it says so; or they fail from all of these writers. -/
def Additive (calls : List Call) (indent : Nat) (start : Bool) : Prop :=
  (∃ answers added indent', ∀ w : Writer, w.At indent start →
    w.performAll calls = some (answers, w.further added indent' (startsBehind start added))) ∨
  ∀ w : Writer, w.At indent start → w.performAll calls = none

theorem performAll_singleton (w : Writer) (call : Call) : w.performAll [call] =
    (w.perform call).map fun performed => ([performed.1], performed.2) := by
  cases h : w.perform call <;> simp [performAll, h]

theorem performAll_append (w : Writer) (first rest : List Call) : w.performAll (first ++ rest) =
    (w.performAll first).bind fun done =>
      (done.2.performAll rest).map fun more => (done.1 ++ more.1, more.2) := by
  induction first generalizing w with
  | nil => simp [performAll]
  | cons call first ih =>
      cases hcall : w.perform call with
      | none => simp [performAll, hcall]
      | some performed =>
          cases hfirst : performed.2.performAll first with
          | none => simp [performAll, hcall, hfirst, ih]
          | some done =>
              cases hrest : done.2.performAll rest <;>
                simp [performAll, hcall, hfirst, hrest, ih]

theorem additive_nil : Additive [] indent start :=
  .inl ⟨[], "", indent, fun w hw => by simp [performAll, further_empty hw]⟩

theorem Additive.append {first rest : List Call} (h : Additive first indent start)
    (hrest : ∀ indent start, Additive rest indent start) :
    Additive (first ++ rest) indent start := by
  rcases h with ⟨answers, added, mid, hfirst⟩ | hnone
  · rcases hrest mid (startsBehind start added) with ⟨answers', more, last, hrest⟩ | hnone
    · refine .inl ⟨answers ++ answers', added ++ more, last, fun w hw => ?_⟩
      simp [performAll_append, hfirst w hw, hrest _ (at_further w added), further_further,
        startsBehind_append]
    · refine .inr fun w hw => ?_
      simp [performAll_append, hfirst w hw, hnone _ (at_further w added)]
  · exact .inr fun w hw => by simp [performAll_append, hnone w hw]

/-- No line starts behind a text without line feeds that is not empty. -/
theorem startsBehind_of_notMem {text : String} (hne : text ≠ "") (h : '\n' ∉ text.toList)
    (start : Bool) (front : String) : startsBehind start (front ++ text) = false := by
  have hlist : text.toList ≠ [] := fun h => hne (String.toList_eq_nil_iff.mp h)
  have hlast : text.toList.getLast? ≠ some '\n' := fun hlast => h (List.mem_of_getLast? hlast)
  rw [← startsBehind_append, startsBehind_of_ne hne]
  simpa using hlast

theorem exists_further_write {text : String} (h : '\n' ∉ text.toList) (indent : Nat)
    (start : Bool) : ∃ added, ∀ w : Writer, w.At indent start →
      w.write text = w.further added indent (startsBehind start added) := by
  by_cases hempty : text = ""
  · exact ⟨"", fun w hw => by simp [write, hempty, further_empty hw]⟩
  · cases start with
    | true =>
        refine ⟨margin indent ++ text, fun w hw => ?_⟩
        rw [startsBehind_of_notMem hempty h]
        simp [write, hempty, hw.1, hw.2, further, String.append_assoc]
    | false =>
        have hbehind := startsBehind_of_notMem hempty h false ""
        rw [String.empty_append] at hbehind
        refine ⟨text, fun w hw => ?_⟩
        rw [hbehind]
        simp [write, hempty, hw.1, hw.2, further]

theorem exists_further_writeLine (text : String) (indent : Nat) (start : Bool) :
    ∃ added, ∀ w : Writer, w.At indent start →
      w.writeLine text = w.further added indent (startsBehind start added) := by
  obtain ⟨added, hadded⟩ := exists_write text indent start
  refine ⟨added ++ "\n", fun w hw => ?_⟩
  rw [startsBehind_newline, writeLine, hadded w hw]
  simp [newline, further, String.append_assoc]

theorem exists_further_writeLines (text : String) (indent : Nat) (start : Bool) :
    ∃ added, ∀ w : Writer, w.At indent start →
      w.writeLines text = w.further added indent (startsBehind start added) := by
  unfold writeLines
  induction linesOf text generalizing start with
  | nil => exact ⟨"", fun w hw => by simp [further_empty hw]⟩
  | cons line rest ih =>
      obtain ⟨first, hfirst⟩ := exists_further_writeLine line indent start
      obtain ⟨others, hothers⟩ := ih (startsBehind start first)
      refine ⟨first ++ others, fun w hw => ?_⟩
      rw [List.foldl_cons, hfirst w hw, hothers _ (at_further w first), further_further,
        startsBehind_append]

/-- One call that writes on. -/
theorem additive_singleton {call : Call} (h : call.WritesOn) (indent : Nat) (start : Bool) :
    Additive [call] indent start := by
  -- A call that hands nothing back and never fails.
  have hadds : ∀ f : Writer → Writer, (∀ w, w.perform call = some (.nothing, f w)) →
      ∀ indent', (∃ added, ∀ w : Writer, w.At indent start →
        f w = w.further added indent' (startsBehind start added)) →
      Additive [call] indent start := by
    rintro f hf indent' ⟨added, hadded⟩
    exact .inl ⟨[.nothing], added, indent', fun w hw => by
      simp [performAll_singleton, hf, hadded w hw]⟩
  cases call with
  | write text => exact hadds _ (fun _ => rfl) indent (exists_further_write h indent start)
  | writeChar c =>
      have hc : c ≠ '\n' := h
      have hline : '\n' ∉ (String.singleton c).toList := by simpa using hc.symm
      exact hadds (·.writeChar c) (fun _ => rfl) indent (exists_further_write hline indent start)
  | newline =>
      refine hadds _ (fun _ => rfl) indent ⟨"\n", fun w hw => ?_⟩
      simp [Writer.newline, further, startsBehind, hw.1]
  | writeLine text =>
      exact hadds _ (fun _ => rfl) indent (exists_further_writeLine text indent start)
  | writeLines text =>
      exact hadds _ (fun _ => rfl) indent (exists_further_writeLines text indent start)
  | writeRaw text =>
      refine hadds _ (fun _ => rfl) indent ⟨text, fun w hw => ?_⟩
      rw [writeRaw_eq, startsBehind_of_ne h, startsBehind_of_ne h, hw.1]
  | indentMore =>
      refine hadds _ (fun _ => rfl) (indent + 1) ⟨"", fun w hw => ?_⟩
      simp [Writer.indentMore, further, hw.1, hw.2]
  | openBlock =>
      obtain ⟨added, hadded⟩ := exists_further_writeLine "\x7b" indent start
      refine hadds _ (fun _ => rfl) (indent + 1) ⟨added, fun w hw => ?_⟩
      simp [Writer.openBlock, hadded w hw, Writer.indentMore, further]
  | dedent =>
      cases indent with
      | zero =>
          exact .inr fun w hw => by simp [performAll_singleton, perform, dedent?, hw.1]
      | succ n =>
          refine .inl ⟨[.nothing], "", n, fun w hw => ?_⟩
          simp [performAll_singleton, perform, dedent?, further, hw.1, hw.2]
  | closeBlock =>
      cases indent with
      | zero =>
          exact .inr fun w hw => by
            simp [performAll_singleton, perform, closeBlock?, dedent?, hw.1]
      | succ n =>
          obtain ⟨added, hadded⟩ := exists_further_writeLine "\x7d" n start
          refine .inl ⟨[.nothing], added, n, fun w hw => ?_⟩
          have hinner : ({ w with indent := n } : Writer).At n start := ⟨rfl, hw.2⟩
          simp [performAll_singleton, perform, closeBlock?, dedent?, hw.1, hadded _ hinner, further]
  | beginSection | endSection | createFile | closeFile | takeFiles | reset => exact h.elim

/-- A section whose text is taken out adds nothing to what is around it, but may change the
margin. -/
theorem Additive.nest {inner : List Call} (h : ∀ indent start, Additive inner indent start)
    (indent : Nat) (start : Bool) :
    Additive (.beginSection :: (inner ++ [.endSection])) indent start := by
  have hbegin : ∀ w : Writer, w.At indent start → w.beginSection.At indent true :=
    fun w hw => ⟨hw.1, rfl⟩
  rcases h indent true with ⟨answers, added, indent', hinner⟩ | hnone
  · refine .inl ⟨.nothing :: (answers ++ [.text added]), "", indent', fun w hw => ?_⟩
    have hend : { w with indent := indent' } = w.further "" indent' start := by
      simp [further, ← hw.2]
    simp [performAll, performAll_append, perform, hinner _ (hbegin w hw), endSection_further, hend]
  · exact .inr fun w hw => by
      simp [performAll, performAll_append, perform, hnone _ (hbegin w hw)]

theorem WriteOn.additive {calls : List Call} (h : WriteOn calls) (indent : Nat) (start : Bool) :
    Additive calls indent start := by
  induction h generalizing indent start with
  | nil => exact additive_nil
  | call h _ ih => exact (additive_singleton h indent start).append ih
  | nest _ _ ih ih' =>
      have hsection := (Additive.nest ih indent start).append ih'
      simpa using hsection

/-- Where a line starts, calls that write on leave the same writer and hand back the same if they
are made in a section that is then written as it is. -/
theorem defer_eq_performAll (hstart : w.atLineStart = true) {calls : List Call}
    (hcalls : WriteOn calls) : w.defer calls = w.performAll calls := by
  have hw : w.At w.indent true := ⟨rfl, hstart⟩
  have hbegin : w.beginSection.At w.indent true := ⟨rfl, rfl⟩
  rcases hcalls.additive w.indent true with ⟨answers, added, indent', hadds⟩ | hnone
  · have hraw : ({ w with indent := indent' } : Writer).writeRaw added =
        w.further added indent' (startsBehind true added) := writeRaw_eq _ added
    simp [defer, hadds w hw, hadds _ hbegin, endSection_further, hraw]
  · simp [defer, hnone w hw, hnone _ hbegin]

/-- A block in a section of its own, whose text is written in front of a second block. -/
theorem defer_eq_performAll_blocks :
    let w : Writer := (new.writeLine "head").indentMore
    let calls : List Call := [.beginSection, .openBlock, .writeLines "first\nlast", .closeBlock,
      .endSection, .writeRaw "\t\x7b\n\t\tfirst\n\t\tlast\n\t\x7d\n", .dedent, .openBlock,
      .write "end"]
    w.atLineStart = true ∧ WriteOn calls ∧ w.defer calls = w.performAll calls ∧
      (w.performAll calls).map (·.2.out) =
        some "head\n\t\x7b\n\t\tfirst\n\t\tlast\n\t\x7d\n\x7b\n\tend" := by
  intro w calls
  have hinner : WriteOn [.openBlock, .writeLines "first\nlast", .closeBlock] :=
    .call trivial (.call trivial (.call trivial .nil))
  have hcalls : WriteOn calls := .nest hinner
    (.call (show _ ≠ "" by decide) (.call trivial (.call trivial
      (.call (show '\n' ∉ "end".toList by decide) .nil))))
  exact ⟨rfl, hcalls, defer_eq_performAll rfl hcalls, by decide⟩

end Emitter.Layout.Writer
