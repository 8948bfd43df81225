import Emitter.Proofs.Dialects.Statement
import Emitter.Proofs.Whole.Assembled
import Emitter.Proofs.Whole.Outcome

/-!
# Programs in the two dialects of C

A program that OpenCL C takes is taken by standard C. Without calls that copy or clear arrays, the
two dialects take the same programs, and they stop at the same fault where they do not.
-/

namespace Emitter

open Layout Program Emit

variable {copies : Prop} {p : Program}

namespace CFamily

theorem alike_signature (c : ClassDef) (m : MethodDef) :
    Emitter.Alike copies (signature (p.inC .standard) .standard c m)
      (signature (p.inC .openCL) .openCL c m) := by
  have hparams : Emitter.Alike copies
      (m.params.mapM fun param => declaration (p.inC .standard) .standard param.ty
        ((p.inC .standard).localWord param.name))
      (m.params.mapM fun param => declaration (p.inC .openCL) .openCL param.ty
        ((p.inC .openCL).localWord param.name)) :=
    alike_mapM (List.forall₂_same.mpr fun _ _ => rfl) fun x y h => h ▸ alike_declaration _ _ _
  exact (alike_typeCode _).seq fun _ _ => hparams.andThen

section Classes

variable {c : ClassDef} (hp : ¬copies → p.everyExpr (!·.copiesArray) = true) (hc : c ∈ p.classes)

include hp hc

theorem alike_fieldSetup {f : FieldDef} (hf : f ∈ c.fields) :
    (fieldSetup (p.inC .standard) c f).Alike copies (fieldSetup (p.inC .openCL) c f) := by
  unfold fieldSetup
  split
  case h_1 e _ hvalue =>
    exact alike_lift (Context.alike_code fun hcopies =>
      (everyExpr_iff.mp (hp hcopies) c hc).1 f hf e hvalue) fun _ _ _ => alike_line _ _
  case h_2 =>
    split_ifs
    · exact (alike_ofSteps _ _).seq (alike_constructCalls _ _ _ _)
    · exact alike_constructCalls _ _ _ _

theorem alike_constructorBody :
    (constructorBody (p.inC .standard) c).Alike copies (constructorBody (p.inC .openCL) c) := by
  have hfields := alike_forM fun f hf => alike_fieldSetup hp hc (f := f) hf
  have hstmts := Context.alike_statements (p := p) fun s hs =>
      Context.alike_statement fun hcopies =>
    (everyExpr_iff.mp (hp hcopies) c hc).2.1 s hs
  exact (alike_ofSteps _ _).seq ((alike_line _ _).seq (hfields.seq hstmts).braced)

theorem alike_methodBody {m : MethodDef} (hm : m ∈ c.methods) :
    (methodBody (p.inC .standard) .standard c m).Alike copies
      (methodBody (p.inC .openCL) .openCL c m) := by
  have hbody := Context.alike_body (p := p) fun s hs hcopies =>
    (everyExpr_iff.mp (hp hcopies) c hc).2.2 m hm s hs
  exact (alike_ofSteps _ _).seq ((alike_ofSteps _ _).seq
    (alike_lift (alike_signature c m) fun _ _ _ => (alike_line _ _).seq hbody))

end Classes

/-- The classes that are printed do not depend on the dialect. -/
theorem alike_printedClasses {next next' : List (ClassDef × Bool) → Emit Unit}
    (h : ∀ classes : List (ClassDef × Bool), (∀ entry ∈ classes, entry.1 ∈ p.classes) →
      (next classes).Alike copies (next' classes)) :
    Emit.Alike copies (do next (← (printedClasses (p.inC .standard) : Result _)))
      (do next' (← (printedClasses (p.inC .openCL) : Result _))) := by
  refine alike_lookUp fun classes hclasses => h classes fun entry hentry => ?_
  have hshown := @printedClasses_eq (p.inC .standard) classes hclasses
  rw [hshown] at hentry
  obtain ⟨entry, hshown, rfl⟩ := List.mem_map.mp hentry
  exact mem_classes_of_classOf (Program.mem_resolved.mp hshown).2

theorem alike_bodies (hp : ¬copies → p.everyExpr (!·.copiesArray) = true) :
    (bodies (p.inC .standard) .standard).Alike copies (bodies (p.inC .openCL) .openCL) := by
  refine alike_printedClasses fun classes hclasses => alike_forM fun (c, constructed) hentry => ?_
  have hc : c ∈ p.classes := hclasses _ hentry
  have hmethods := alike_forM fun m hm => alike_methodBody hp hc (m := m) hm
  cases constructed with
  | false => exact alike_done.seq hmethods
  | true => exact (alike_constructorBody hp hc).seq hmethods

theorem alike_enumeration (e : EnumDef) :
    (enumeration (p.inC .standard) e).Alike copies (enumeration (p.inC .openCL) e) :=
   Alike.ite (alike_ofSteps _ _) ((alike_ofSteps _ _).seq ((alike_ofSteps _ _).seq
    ((alike_line _ _).seq ((alike_forM fun _ _ => alike_line _ _).deeper.seq (alike_line _ _)))))

theorem alike_macroLine (c : ClassDef) (k : ConstDef) :
    (macroLine (p.inC .standard) c k).Alike copies (macroLine (p.inC .openCL) c k) :=
  alike_lift (Context.alike_constValue _) fun _ _ _ => alike_line _ _

theorem alike_prototypes (c : ClassDef) (constructed : Bool) :
    (prototypes (p.inC .standard) .standard c constructed).Alike copies
      (prototypes (p.inC .openCL) .openCL c constructed) := by
  have hmethods : Emit.Alike copies
      (c.methods.forM fun m => do
        Emit.line
          ((← (signature (p.inC .standard) .standard c m : Result Code)) ++ [Lexeme.symbol ";"]))
      (c.methods.forM fun m => do
        Emit.line
          ((← (signature (p.inC .openCL) .openCL c m : Result Code)) ++ [Lexeme.symbol ";"])) :=
    alike_forM fun m _ => alike_lift (alike_signature c m) fun _ _ _ => alike_line _ _
  cases constructed with
  | false => exact alike_done.seq hmethods
  | true => exact (alike_line _ _).seq hmethods

theorem alike_structLayout (c : ClassDef) :
    (structLayout (p.inC .standard) .standard c).Alike copies
      (structLayout (p.inC .openCL) .openCL c) := by
  refine (alike_ofSteps _ _).seq ((alike_ofSteps _ _).seq ((alike_line _ _).seq
    ((Alike.seq ?_ ?_).deeper.seq (alike_line _ _))))
  · exact alike_forM fun f _ => alike_lift (alike_declaration _ _ _) fun _ _ _ => alike_line _ _
  · exact Alike.ite (alike_line _ _) alike_done

theorem alike_byteLines (rows : List (List UInt8)) :
    (byteLines rows).Alike copies (byteLines rows) := by
  induction rows with
  | nil => exact alike_done
  | cons row rest ih =>
      cases rest with
      | nil => exact alike_line _ _
      | cons next rest => exact (alike_line _ _).seq ih

theorem alike_resourceTable (name : String) (bytes : List UInt8) :
    (resourceTable .standard name bytes).Alike copies (resourceTable .openCL name bytes) :=
  (alike_ofSteps _ _).seq ((alike_line _ _).seq
    ((alike_byteLines _).deeper.seq (alike_line _ _)))

theorem alike_constTable (c : ClassDef) (k : ConstDef) :
    Emitter.Alike copies (constTable (p.inC .standard) .standard c k)
      (constTable (p.inC .openCL) .openCL c k) := by
  unfold constTable
  split
  · exact (alike_typeCode _).seq fun _ _ => (Context.alike_constValue _).andThen
  · exact Context.alike_unsupported _ rfl

theorem alike_declarations : (declarations (p.inC .standard) .standard).Alike copies
    (declarations (p.inC .openCL) .openCL) := by
  refine (alike_forM fun _ _ => (alike_ofSteps _ _).seq (alike_ofSteps _ _)).seq
    (alike_lookUp fun enums _ => ?_)
  refine (alike_forM fun entry _ => alike_enumeration entry.2).seq
    (alike_printedClasses fun classes _ => ?_)
  refine (alike_forM fun entry _ => alike_forM fun k _ => alike_macroLine entry.1 k).group.seq ?_
  refine (alike_forM fun entry _ => Alike.ite alike_done (alike_line _ _)).group.seq ?_
  refine (alike_forM fun entry _ => alike_prototypes entry.1 entry.2).group.seq ?_
  refine alike_lookUp fun order _ => ?_
  refine (alike_forM fun id _ => alike_lookUp fun c _ => alike_structLayout c).seq ?_
  refine (alike_forM fun entry _ => alike_resourceTable entry.1 entry.2).seq ?_
  exact (alike_forM fun entry _ => alike_forM fun k _ =>
    alike_lift (alike_constTable entry.1 k) fun _ _ _ => alike_line _ _).group

theorem alike_generate (hp : ¬copies → p.everyExpr (!·.copiesArray) = true) (o : Options) :
    Emitter.Alike copies (generate "c" p o).files (generate "cl" p o).files := by
  have hrun : Emitter.Alike copies
      (do (bodies (p.inC .standard) .standard).outcome
          (declarations (p.inC .standard) .standard).outcome)
      (do (bodies (p.inC .openCL) .openCL).outcome
          (declarations (p.inC .openCL) .openCL).outcome) :=
    Parallel.seq (alike_bodies hp) fun _ _ => alike_declarations
  rw [← outcome_generate .standard p o, ← outcome_generate .openCL p o] at hrun
  exact hrun.of_map

end CFamily

/-- What OpenCL C prints, standard C prints. If no call of the program copies or clears an array,
either both go through or both stop at the same fault, in each dialect's words. -/
theorem standardC_of_openCL (p : Program) (o : Options) :
    ((∃ files, (generate "cl" p o).files = .ok files) →
        ∃ files, (generate "c" p o).files = .ok files) ∧
      (p.everyExpr (!·.copiesArray) = true →
        (∃ files files', (generate "cl" p o).files = .ok files ∧
          (generate "c" p o).files = .ok files') ∨
        ∃ fault, (generate "cl" p o).files = .error fault ∧
          (generate "c" p o).files = .error fault.inStandardC) := by
  have h : Alike (¬p.everyExpr (!·.copiesArray) = true) (generate "c" p o).files
      (generate "cl" p o).files := CFamily.alike_generate not_not.mp o
  generalize (generate "c" p o).files = r at h ⊢
  generalize (generate "cl" p o).files = r' at h ⊢
  cases h with
  | values => exact ⟨fun _ => ⟨_, rfl⟩, fun _ => .inl ⟨_, _, rfl, rfl⟩⟩
  | faults fault => exact ⟨nofun, fun _ => .inr ⟨fault, rfl, rfl⟩⟩
  | copied hcopies => exact ⟨nofun, fun hp => absurd hp hcopies⟩

/-- A method that evaluates an expression. -/
def Program.evaluating (e : Expr) : Program :=
  ⟨[], [⟨"Game", .exported, none, none,
    [.method ⟨"run", .exported, none, true, [], .void, [.eval e]⟩], []⟩], [.classDef ⟨0⟩], [],
      .empty⟩

/-- Neither dialect has a form for an interpolated string that is not printed, and only standard C
has one for clearing an array. -/
theorem standardC_of_openCL_evaluating :
    let unprinted := Program.evaluating (.interpolated [] "score" .string)
    let clearing := Program.evaluating (.call
      (some (.var "line" (.array (.int .int) true (some 4)))) (.builtin .arrayClear) [] .void)
    let o : Options := ⟨⟨"game"⟩, none⟩
    unprinted.everyExpr (!·.copiesArray) = true ∧
      (∃ fault, (generate "cl" unprinted o).files = .error fault ∧
        (generate "c" unprinted o).files = .error fault.inStandardC) ∧
      (generate "cl" clearing o).files.toOption = none ∧
      (generate "c" clearing o).files.toOption ≠ none := by
  intro unprinted clearing o
  have hkeeps : unprinted.everyExpr (!·.copiesArray) = true := by decide +kernel
  have hrefused : (generate "cl" unprinted o).files.toOption = none := by decide +kernel
  refine ⟨hkeeps, ?_, by decide +kernel, by decide +kernel⟩
  rcases (standardC_of_openCL unprinted o).2 hkeeps with ⟨files, -, hfiles, -⟩ | hfault
  · simp [hfiles, Except.toOption] at hrefused
  · exact hfault

end Emitter
