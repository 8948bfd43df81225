import Emitter.Proofs.Initializers.Classes

/-!
# The texts of classes

Carrying steps out adds a text that depends on nothing but the margin. So a frame of steps becomes a
frame of characters: the text of a class is the same whatever its initializers are, but for the
places where the code of each of them stands.
-/

namespace Emitter

open Layout Program

/-- The text that is printed for an initializer. -/
def initialText (code : Code) : List Char := (" = " ++ code.text).toList

section Fill

variable {α : Type} {frame : List (Option α)} {given : List (List α)}

theorem mem_fill {a : α} (h : some a ∈ frame) : a ∈ fill frame given := by
  induction frame generalizing given with
  | nil => simp at h
  | cons part frame ih =>
      cases part with
      | some b =>
          rcases List.mem_cons.mp h with heq | hmem
          · exact Option.some.inj heq ▸ List.mem_cons_self
          · exact List.mem_cons_of_mem _ (ih hmem)
      | none =>
          have hmem : some a ∈ frame := by simpa using h
          cases given with
          | nil => exact ih hmem
          | cons g given => exact List.mem_append_right _ (ih hmem)

/-- A frame with as many places as one likes. -/
theorem exists_places (α : Type) (n : Nat) : ∃ frame : List (Option α), places frame = n :=
  ⟨List.replicate n none, by simp [places, List.countP_replicate]⟩

end Fill

namespace Desk

/-- Printing code one lexeme after the other makes no difference. -/
theorem play?_pieces (d : Desk) (steps : List Step) :
    d.play? (steps.flatMap Step.pieces) = d.play? steps := by
  have hput (code : Code) (d : Desk) : d.play? (code.map fun l => .put [l]) =
      some { d with writer := code.foldl (fun w l => w.write l.text) d.writer } := by
    induction code generalizing d with
    | nil => rfl
    | cons l rest ih => exact ih _
  induction steps generalizing d with
  | nil => rfl
  | cons step rest ih =>
      have hstep : d.play? step.pieces = d.play? [step] := by
        cases step with
        | put code => exact hput code d
        | _ => rfl
      have hcons : d.play? (step :: rest) = (d.play? [step]).bind (·.play? rest) :=
        d.play?_append [step] rest
      rw [List.flatMap_cons, play?_append, hstep, hcons]
      exact congrArg _ (funext ih)

/-- An initializer is printed behind an equality sign. At the start of a line it gets the margin. -/
theorem play?_initialValue (code : Code) {w : Writer} {level : Nat} {start : Bool}
    (hw : w.At level start) (notices : List Notice) :
    (Desk.mk w notices).play? (Step.initialValue code) = some
      ⟨w.further ((if start then Writer.margin level else "") ++ String.ofList (initialText code))
        level false, notices⟩ := by
  obtain ⟨rfl, rfl⟩ := hw
  have hplay := Desk.play?_pieces ⟨w, notices⟩ [.put (Code.operator "=" ++ code)]
  rw [List.flatMap_singleton, Desk.play?_singleton] at hplay
  have hfirst : w.write (Lexeme.text .gap) = w.further
      ((if w.atLineStart then Writer.margin w.indent else "") ++ " ") w.indent false := by
    cases hstart : w.atLineStart <;>
      simp [Writer.write, Lexeme.text, Writer.further, hstart, String.append_assoc]
  have hrest := Emit.foldl_write_eq (.symbol "=" :: .gap :: code) (w := w.further
    ((if w.atLineStart then Writer.margin w.indent else "") ++ " ") w.indent false) rfl
  have hcode : (Code.operator "=" ++ code).foldl (fun w l => w.write l.text) w = w.further
      ((if w.atLineStart then Writer.margin w.indent else "") ++ String.ofList (initialText code))
        w.indent false := by
    rw [show Code.operator "=" ++ code = .gap :: .symbol "=" :: .gap :: code from rfl,
      List.foldl_cons, hfirst, hrest]
    have htext :
        " " ++ Code.text (.symbol "=" :: .gap :: code) = String.ofList (initialText code) :=
      String.toList_inj.mp (by simp [Code.toList_text, Lexeme.text, initialText])
    simp [← htext, Writer.further, String.append_assoc]
  rw [Step.initialValue, hplay]
  simp [Desk.step?, hcode]

end Desk

/-- Carried out at a margin, a frame of steps gives a frame of characters. -/
theorem exists_sheet {frame : List (Option Step)}
    (hstay : ∀ step, some step ∈ frame → step.staysInFile = true) (level : Nat) (start : Bool) :
    ∃ sheet : List (Option Char), places sheet = places frame ∧
      ∀ codes : List Code, places frame = codes.length → ∀ w notices d, w.At level start →
        (Desk.mk w notices).play? (fill frame (codes.map Step.initialValue)) = some d →
          d.writer.out = w.out ++ String.ofList (fill sheet (codes.map initialText)) := by
  induction frame generalizing level start with
  | nil =>
      refine ⟨[], rfl, fun codes _ w notices d _ hplay => ?_⟩
      obtain rfl := Option.some.inj hplay
      simp [fill]
  | cons part rest ih =>
      have hrest : ∀ step, some step ∈ rest → step.staysInFile = true := fun step hstep =>
        hstay step (List.mem_cons_of_mem _ hstep)
      cases part with
      | some step =>
          have hsplit (codes : List Code) (d : Desk) :
              d.play? (fill (some step :: rest) (codes.map Step.initialValue)) =
                (d.play? [step]).bind (·.play? (fill rest (codes.map Step.initialValue))) :=
            d.play?_append [step] _
          rcases Step.uniform_singleton (hstay step List.mem_cons_self) level start with
            ⟨added, level', hadded⟩ | hnone
          · obtain ⟨sheet, hplaces, hsheet⟩ := ih hrest level' (Step.endsLine start [step])
            refine ⟨added.toList.map some ++ sheet, by simp [hplaces],
              fun codes hcodes w notices d hw hplay => ?_⟩
            obtain ⟨notices', hstep⟩ := hadded w notices hw
            rw [hsplit, hstep, Option.bind_some] at hplay
            have hout := hsheet codes (by simpa using hcodes) _ notices' d
              (Writer.at_further ..) hplay
            simp [hout, fill_append_of_map_some, Writer.further, String.append_assoc]
          · obtain ⟨sheet, hplaces⟩ := exists_places Char (places (some step :: rest))
            refine ⟨sheet, hplaces, fun codes _ w notices d hw hplay => ?_⟩
            simp [hsplit, hnone w notices hw] at hplay
      | none =>
          obtain ⟨sheet, hplaces, hsheet⟩ := ih hrest level false
          let margin := if start then Writer.margin level else ""
          refine ⟨margin.toList.map some ++ none :: sheet, by simp [hplaces],
            fun codes hcodes w notices d hw hplay => ?_⟩
          cases codes with
          | nil => simp at hcodes
          | cons code codes =>
              rw [List.map_cons, fill, Desk.play?_append, Desk.play?_initialValue code hw,
                Option.bind_some] at hplay
              have hout := hsheet codes (by simpa using hcodes) _ notices d
                (Writer.at_further ..) hplay
              simp [hout, fill_append_of_map_some, fill, Writer.further, String.append_assoc,
                margin]

theorem Step.staysInFile_pieces {steps : List Step}
    (hstay : ∀ step ∈ steps, step.staysInFile = true) :
    ∀ step ∈ steps.flatMap pieces, step.staysInFile = true := by
  intro step hstep
  obtain ⟨whole, hwhole, hpiece⟩ := List.mem_flatMap.mp hstep
  have hstays := hstay whole hwhole
  cases whole with
  | put code =>
      obtain ⟨l, -, rfl⟩ := List.mem_map.mp hpiece
      rfl
  | _ =>
      obtain rfl := List.mem_singleton.mp hpiece
      exact hstays

/-- The text of an emission in a frame is a frame of characters, filled with the texts of the
initializers. -/
theorem Emit.Framed.exists_sheet {cx : Context} {values : List Expr} {e : (Expr → Expr) → Emit Unit}
    (h : Framed cx values e) (hplays : ∀ f, (e f).Plays)
    (hstay : ∀ f, (e f).outcome = .ok () → ∀ step ∈ (e f).steps, step.staysInFile = true) :
    ∃ sheet : List (Option Char), places sheet = values.length ∧ ∀ f, (e f).outcome = .ok () →
      ∃ codes, values.mapM (fun v => cx.code (f v)) = .ok codes ∧
        (e f).text = String.ofList (fill sheet (codes.map initialText)) := by
  obtain ⟨frame, hplaces, hframe⟩ := h
  have hdone (f : Expr → Expr) (hok : (e f).outcome = .ok ()) : e f = ⟨(e f).steps, .ok ()⟩ := by
    rw [← hok]
  by_cases hstays : ∀ step, some step ∈ frame → step.staysInFile = true
  · obtain ⟨sheet, hsheet, htext⟩ := Emitter.exists_sheet hstays 0 true
    refine ⟨sheet, hsheet.trans hplaces, fun f hok => ?_⟩
    obtain ⟨codes, hcodes, hsteps⟩ := hframe f _ (hdone f hok)
    have hlength : values.length = codes.length := (Result.forall₂_of_mapM_eq_ok hcodes).length_eq
    obtain ⟨d, hplay, -⟩ := hplays f ⟨.new, []⟩
    have hout := htext codes (by rw [hplaces, hlength]) .new [] d ⟨rfl, rfl⟩
      (by rw [← hsteps, Desk.play?_pieces, hplay])
    exact ⟨codes, hcodes, by
      rw [Emit.text, hplay, Option.map_some, Option.getD_some, hout]
      exact String.empty_append⟩
  · -- A step in the frame that leaves the file would be taken in every run that goes through.
    obtain ⟨sheet, hsheet⟩ := exists_places Char values.length
    refine ⟨sheet, hsheet, fun f hok => absurd (fun step hstep => ?_) hstays⟩
    obtain ⟨codes, -, hsteps⟩ := hframe f _ (hdone f hok)
    exact Step.staysInFile_pieces (hstay f hok) step (hsteps ▸ mem_fill hstep)

namespace CFamily

open Emit

variable {cx : Context} {d : Dialect}

theorem plays_classBodies (c : ClassDef) (constructed : Bool) :
    (classBodies cx d c constructed).Plays := by
  have hmethods : (c.methods.forM (methodBody cx d c)).Plays :=
    plays_forM fun m _ => plays_methodBody c m
  cases constructed with
  | false => exact (plays_pure ()).seq hmethods
  | true => exact (plays_constructorBody c).seq hmethods

theorem keeps_classBodies (id : ClassId) (c : ClassDef) (constructed : Bool) :
    (classBodies cx d c constructed).Keeps := by
  have hmethods : (c.methods.forM (methodBody cx d c)).Keeps :=
    keeps_forM fun m _ => keeps_item (.method id c m)
  cases constructed with
  | false => exact (keeps_pure ()).bind fun _ => hmethods
  | true => exact (keeps_item (d := d) (.constructor id c)).bind fun _ => hmethods

theorem prints_classBodies {id : ClassId} {c : ClassDef} (hc : cx.program.classOf id = .ok c)
    (constructed : Bool) : ∃ names, (classBodies cx d c constructed).Prints cx names := by
  have hmethods :=
    @prints_forM _ cx (methodBody cx d c) _ c.methods fun m _ => prints_methodBody hc m
  cases constructed with
  | false => exact ⟨_, (prints_pure ()).seq hmethods⟩
  | true => exact ⟨_, (prints_constructorBody (d := d) hc).seq hmethods⟩

end CFamily

namespace Context

open Emit

variable {cx : Context} {o : Options} {id : ClassId} {c : ClassDef}

theorem plays_printedClass : (cx.printedClass o id c).Plays := by
  unfold printedClass
  cases cx.target with
  | actionScript => exact ActionScript.plays_classLines (ActionScript.plays_contentLines c)
  | cFamily d => exact CFamily.plays_classBodies c _

theorem keeps_printedClass : (cx.printedClass o id c).Keeps := by
  unfold printedClass
  cases cx.target with
  | actionScript => exact (ends_bind fun _ => ends_braced _).keeps
  | cFamily d => exact CFamily.keeps_classBodies id c _

theorem staysInFile_printedClass (hc : cx.program.classOf id = .ok c)
    (hok : (cx.printedClass o id c).outcome = .ok ()) :
    ∀ step ∈ (cx.printedClass o id c).steps, step.staysInFile = true := by
  have hdone : cx.printedClass o id c = ⟨(cx.printedClass o id c).steps, .ok ()⟩ := by rw [← hok]
  obtain ⟨names, hprints⟩ : ∃ names, (cx.printedClass o id c).Prints (cx.inClass id) names := by
    have ht := cx.inClass_target id
    unfold printedClass
    cases htarget : cx.target with
    | actionScript =>
        rw [htarget] at ht
        exact ⟨_, ActionScript.prints_classLines ht (ActionScript.prints_contentLines ht c)⟩
    | cFamily d =>
        have hinside : cx.inClass id = cx := by simp only [inClass, htarget]
        rw [hinside]
        exact CFamily.prints_classBodies hc _
  exact (hprints _ () hdone).1

/-- What is printed of a class is a text of its own. -/
theorem printsText_printedClass (hc : cx.program.classOf id = .ok c)
    (hok : (cx.printedClass o id c).outcome = .ok ()) :
    (cx.printedClass o id c).PrintsText (cx.printedClass o id c).text :=
  printsText_text hok plays_printedClass (staysInFile_printedClass hc hok) keeps_printedClass

/-- The text of a class. -/
def classText (cx : Context) (o : Options) (id : ClassId) : String :=
  match cx.program.classOf id with
  | .ok c => (cx.printedClass o id c).text
  | .error _ => ""

theorem classText_eq (hc : cx.program.classOf id = .ok c) :
    cx.classText o id = (cx.printedClass o id c).text := by
  simp only [classText, hc]

/-- The text of a class is the same whatever its initializers are, but for one place for each of
those that its declarations have room for. -/
theorem exists_sheet (cx : Context) (o : Options) (id : ClassId) :
    ∃ sheet : List (Option Char), ∀ c, cx.program.classOf id = .ok c →
      places sheet = (initialValues (c.declared cx.target)).length ∧
        ∀ f, ((cx.mapValues f).printedClass o id (c.mapValues f)).outcome = .ok () →
          ∃ codes, (initialValues (c.declared cx.target)).mapM
              (fun v => (cx.inClass id).code (f v)) = .ok codes ∧
            (cx.mapValues f).classText o id =
              String.ofList (fill sheet (codes.map initialText)) := by
  cases hc : cx.program.classOf id with
  | error fault => exact ⟨[], fun c h => by cases h⟩
  | ok c =>
      have hmapped (f : Expr → Expr) :
          (cx.mapValues f).program.classOf id = .ok (c.mapValues f) := by
        change (cx.program.mapValues f).classOf id = _
        rw [Program.classOf_mapValues, hc]
        rfl
      obtain ⟨sheet, hplaces, htext⟩ := (framed_printedClass o hc).exists_sheet
        (fun f => plays_printedClass) fun f hok => staysInFile_printedClass (hmapped f) hok
      refine ⟨sheet, fun c' h => ?_⟩
      obtain rfl := Except.ok.inj h
      refine ⟨hplaces, fun f hok => ?_⟩
      rw [classText_eq (hmapped f)]
      exact htext f hok

end Context

end Emitter
