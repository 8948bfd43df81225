import Emitter.Proofs.Json.Expressions
import Emitter.Proofs.Statement.Everywhere

/-!
# Programs that read back

Statements, declarations and whole programs, put together from the codecs of what is in them. A
program with finite numbers only is read back from its encoding within the nesting limit, and what
was read from a text is read again from the text it is then written as.
-/

namespace Emitter.Program

open Json (Decoder ofString)
open Json.Decoder
open Number

variable {limit slack : ℕ}

/-- All literals in the statement are finite. -/
def Stmt.IsFinite (s : Stmt) : Prop := s.everyExpr Expr.isFiniteHere = true

theorem Stmt.isFinite_iff {s : Stmt} : s.IsFinite ↔
    (∀ e ∈ s.exprs, e.IsFinite) ∧ ∀ child ∈ s.children, child.IsFinite :=
  everyExpr_iff

theorem Stmt.toJson_ne_null (s : Stmt) : s.toJson ofFloat ≠ .null := by
  cases s <;> exact nofun

theorem clauseForm_eq (floatForm : Binary64 → Json) (clause : Option Stmt) :
    clauseForm floatForm clause = ofOption (Stmt.toJson floatForm) clause := by
  cases clause <;> rfl

theorem stmtForms_eq (floatForm : Binary64 → Json) (stmts : List Stmt) :
    stmtForms floatForm stmts = stmts.map (Stmt.toJson floatForm) := by
  induction stmts with
  | nil => rfl
  | cons s rest ih => rw [stmtForms, ih, List.map_cons]

theorem assignOp_codec :
    Codec limit slack anything id assignOpDecoder fun op => ofString op.formName :=
  named_codec (by rintro (_ | _) <;> decide) (by decide)

theorem value_codec (h : limit ≤ nestingLimit + 1) :
    Codec limit slack (fun value => ∀ e ∈ value, e.IsFinite) id (nullable expression)
      (receiverForm ofFloat) := by
  rw [funext (receiverForm_eq ofFloat)]
  exact (expression_codec h).nullable Expr.toJson_ne_null

theorem varDecl_codec (h : limit ≤ nestingLimit + 1) :
    Codec limit slack (fun decl => ∀ e ∈ decl.value, e.IsFinite) id varDeclDecoder
      (VarDecl.toJson ofFloat) :=
  .structured (fun decl => (decl.name, decl.ty, decl.value, ()))
    (fun given => ⟨given.1, given.2.1, given.2.2.1⟩)
    (.cons (.required text_codec) <| .cons (.required (type_codec (by omega))) <|
      .cons (.optional (value_codec (by omega)) none nofun (Nat.zero_le _)) .nil)
    (by decide) (fun _ => rfl) (by rintro b (_ | ⟨_, _ | ⟨_, _ | ⟨_, _ | _⟩⟩⟩) <;> simp)
    (fun _ h => ⟨by simpa using h, rfl⟩) fun _ h => ⟨h.2.2.1, rfl⟩

theorem block_codec {stmt : Decoder Stmt}
    (h : Codec (limit - 1 - 1) (slack - 1 - 1) Stmt.IsFinite id stmt (Stmt.toJson ofFloat)) :
    Codec limit slack (fun stmts => ∀ s ∈ stmts, s.IsFinite) id (blockDecoder stmt)
      (blockForm ofFloat) :=
  .structured (fun stmts => (stmts, ())) (fun given => given.1)
    (.cons (.required (.list h)) .nil) (by decide) (fun _ => rfl)
    (by rintro b (_ | ⟨_, _ | _⟩) <;> simp) (fun _ h => ⟨by simpa using h, rfl⟩)
    fun _ h => ⟨h.1, by rw [blockForm, stmtForms_eq]; rfl⟩

theorem stmtDecoder_codec {fuel : ℕ} (hfuel : fuel ≤ nestingLimit + 1) :
    Codec fuel 0 Stmt.IsFinite id (stmtDecoder fuel) (Stmt.toJson ofFloat) := by
  induction fuel with
  | zero => exact .exhausted
  | succ fuel ih =>
    have inside : ∀ {limit' slack'}, limit' ≤ fuel →
        Codec limit' slack' Stmt.IsFinite id (stmtDecoder fuel) (Stmt.toJson ofFloat) :=
      fun hlimit => (ih (by omega)).mono hlimit (Nat.zero_le _)
    have clause : ∀ {limit' slack'}, limit' ≤ fuel → Codec limit' slack' _ id
        (nullable (stmtDecoder fuel)) (clauseForm ofFloat) := fun {limit' slack'} hlimit => by
      rw [funext (clauseForm_eq ofFloat)]
      exact (inside hlimit).nullable Stmt.toJson_ne_null
    refine .choice fun holds => ?_
    have hblock := holds "block" Stmt.block rfl ((block_codec (inside (by omega))).map _)
      fun stmts h => ⟨Stmt.isFinite_iff.mpr ⟨List.forall_mem_nil _, h⟩, rfl⟩
    have heval := holds "expr" Stmt.eval rfl ((expression_codec (by omega)).map _)
      fun e h => ⟨Stmt.isFinite_iff.mpr ⟨by simpa [Stmt.exprs] using h, List.forall_mem_nil _⟩, rfl⟩
    have hdeclare := holds "var" Stmt.declare rfl ((varDecl_codec (by omega)).map _)
      fun decl h =>
        ⟨Stmt.isFinite_iff.mpr ⟨by simpa [Stmt.exprs] using h, List.forall_mem_nil _⟩, rfl⟩
    have hassign := holds "assign" (fun given => .assign given.1 given.2.1 given.2.2.1) rfl
      (.record _ (.cons (.required (expression_codec (by omega))) <|
        .cons (.required assignOp_codec) <| .cons (.required (expression_codec (by omega))) .nil)
        (by decide) (fun _ => rfl) (by rintro b (_ | ⟨_, _ | ⟨_, _ | ⟨_, _ | _⟩⟩⟩) <;> simp))
      fun given h =>
        ⟨Stmt.isFinite_iff.mpr ⟨by simpa [Stmt.exprs] using h, List.forall_mem_nil _⟩, rfl⟩
    have hbranch := holds "if" (fun given => .branch given.1 given.2.1 given.2.2.1) rfl
      (.record _ (.cons (.required (expression_codec (by omega))) <|
        .cons (.required (inside (by omega))) <|
          .cons (.optional (clause (by omega)) none (by simp) (Nat.zero_le _)) .nil)
        (by decide) (fun _ => rfl) (by rintro b (_ | ⟨_, _ | ⟨_, _ | ⟨_, _ | _⟩⟩⟩) <;> simp))
      fun given h =>
        ⟨Stmt.isFinite_iff.mpr ⟨by simpa [Stmt.exprs] using h.1,
          by simpa [Stmt.children] using h.2⟩, rfl⟩
    have hwhile := holds "while" (fun given => .whileLoop given.1 given.2.1) rfl
      (.record _ (.cons (.required (expression_codec (by omega))) <|
        .cons (.required (inside (by omega))) .nil)
        (by decide) (fun _ => rfl) (by rintro b (_ | ⟨_, _ | ⟨_, _ | _⟩⟩) <;> simp))
      fun given h => ⟨Stmt.isFinite_iff.mpr ⟨by simpa [Stmt.exprs] using h.1,
        by simpa [Stmt.children] using h.2⟩, rfl⟩
    have hdo := holds "do_while" (fun given => .doLoop given.1 given.2.1) rfl
      (.record _ (.cons (.required (inside (by omega))) <|
        .cons (.required (expression_codec (by omega))) .nil)
        (by decide) (fun _ => rfl) (by rintro b (_ | ⟨_, _ | ⟨_, _ | _⟩⟩) <;> simp))
      fun given h => ⟨Stmt.isFinite_iff.mpr ⟨by simpa [Stmt.exprs] using h.2.1,
        by simpa [Stmt.children] using h.1⟩, rfl⟩
    have hfor := holds "for"
      (fun given => .forLoop given.1 given.2.1 given.2.2.1 given.2.2.2.1) rfl
      (.record _ (.cons (.optional (clause (by omega)) none (by simp) (Nat.zero_le _)) <|
        .cons (.optional (value_codec (by omega)) none (by simp) (Nat.zero_le _)) <|
          .cons (.optional (clause (by omega)) none (by simp) (Nat.zero_le _)) <|
            .cons (.required (inside (by omega))) .nil)
        (by decide) (fun _ => rfl)
        (by rintro b (_ | ⟨_, _ | ⟨_, _ | ⟨_, _ | ⟨_, _ | _⟩⟩⟩⟩) <;> simp))
      fun given h =>
        ⟨Stmt.isFinite_iff.mpr ⟨by simpa [Stmt.exprs] using h.2.1,
          by simpa [Stmt.children, or_imp, forall_and] using ⟨h.1, h.2.2.1, h.2.2.2.1⟩⟩, rfl⟩
    have hreturn := holds "return" Stmt.returnValue rfl ((value_codec (by omega)).map _)
      fun value h =>
        ⟨Stmt.isFinite_iff.mpr ⟨by simpa [Stmt.exprs] using h, List.forall_mem_nil _⟩, rfl⟩
    have hthrow := holds "throw" Stmt.throwError rfl ((expression_codec (by omega)).map _)
      fun e h => ⟨Stmt.isFinite_iff.mpr ⟨by simpa [Stmt.exprs] using h, List.forall_mem_nil _⟩, rfl⟩
    have hnative := holds "native" Stmt.native rfl (text_codec.map _) fun _ _ => ⟨rfl, rfl⟩
    refine ⟨fun s hs => ?_, fun name c hc => ?_⟩
    · obtain ⟨hexprs, hchildren⟩ := Stmt.isFinite_iff.mp hs
      cases s with
      | block stmts => exact hblock.chosen stmts hchildren
      | eval e => exact heval.chosen e (by simpa [Stmt.exprs] using hexprs)
      | declare decl => exact hdeclare.chosen decl (by simpa [Stmt.exprs] using hexprs)
      | assign target op value =>
          exact hassign.chosen (target, op, value, ()) (by simpa [Stmt.exprs] using hexprs)
      | branch cond onTrue onFalse =>
          exact hbranch.chosen (cond, onTrue, onFalse, ())
            (by simpa [Stmt.exprs, Stmt.children] using And.intro hexprs hchildren)
      | whileLoop cond body =>
          exact hwhile.chosen (cond, body, ())
            (by simpa [Stmt.exprs, Stmt.children] using And.intro hexprs hchildren)
      | doLoop body cond =>
          exact hdo.chosen (body, cond, ())
            (by simpa [Stmt.exprs, Stmt.children] using And.intro hchildren hexprs)
      | forLoop start cond advance body =>
          simp only [Stmt.exprs, Stmt.children, List.mem_append, Option.mem_toList,
            List.mem_singleton, or_imp, forall_and, forall_eq] at hexprs hchildren
          exact hfor.chosen (start, cond, advance, body, ())
            ⟨hchildren.1.1, hexprs, hchildren.1.2, hchildren.2, trivial⟩
      | breakLoop => exact .bare _ rfl rfl
      | continueLoop => exact .bare _ rfl rfl
      | returnValue value => exact hreturn.chosen value (by simpa [Stmt.exprs] using hexprs)
      | «throwError» e => exact hthrow.chosen e (by simpa [Stmt.exprs] using hexprs)
      | native text => exact hnative.chosen text trivial
    · split at hc <;> cases hc
      · exact hblock.sound _ rfl
      · exact heval.sound _ rfl
      · exact hdeclare.sound _ rfl
      · exact hassign.sound _ rfl
      · exact hbranch.sound _ rfl
      · exact hwhile.sound _ rfl
      · exact hdo.sound _ rfl
      · exact hfor.sound _ rfl
      · exact .bare _ rfl rfl
      · exact .bare _ rfl rfl
      · exact hreturn.sound _ rfl
      · exact hthrow.sound _ rfl
      · exact hnative.sound _ rfl

theorem bodyBlock_codec (h : limit ≤ nestingLimit + 1) :
    Codec limit slack (fun stmts => ∀ s ∈ stmts, s.IsFinite) id block (blockForm ofFloat) :=
  block_codec ((stmtDecoder_codec le_rfl).mono (by omega) (Nat.zero_le _))

theorem visibility_codec :
    Codec limit slack anything id visibilityDecoder fun v => ofString v.formName :=
  named_codec (by rintro (_ | _) <;> decide) (by decide)

theorem symbolId_codec : Codec limit slack anything id symbolIdDecoder SymbolId.toJson := by
  refine .choice fun holds => ?_
  have henum := holds "enum" SymbolId.enumeration rfl (enumId_codec.map _) fun _ _ => ⟨trivial, rfl⟩
  have hclass := holds "class" SymbolId.classDef rfl (classId_codec.map _) fun _ _ => ⟨trivial, rfl⟩
  refine ⟨fun symbol _ => ?_, fun name c hc => ?_⟩
  · cases symbol with
    | enumeration id => exact henum.chosen id trivial
    | classDef id => exact hclass.chosen id trivial
  · split at hc <;> cases hc
    · exact henum.sound _ rfl
    · exact hclass.sound _ rfl

/-- The documentation of a symbol, if it has any. -/
theorem doc_codec (h : 2 ≤ slack) :
    Codec limit slack (fun doc => ∀ d ∈ doc, anything d) id (nullable docDecoder)
      (ofOption Doc.toJson) := by
  refine Codec.nullable (.structured (fun doc => (doc.summary, doc.details, ()))
    (fun given => ⟨given.1, given.2.1⟩)
    (.cons (.required text_codec) <| .cons (.optional (.list text_codec) [] (by simp) ?_) .nil)
    (by decide) (fun _ => rfl) ?_ (fun _ _ => ⟨by simp, rfl⟩) fun _ _ => ⟨trivial, rfl⟩) nofun
  · simp only [ofList, List.map_nil, Json.depth, Json.itemsDepth]
    omega
  · rintro b (_ | ⟨_, _ | ⟨_, _ | _⟩⟩) <;> simp

theorem enumValue_codec (h : 3 ≤ slack) :
    Codec limit slack anything id enumValueDecoder EnumValue.toJson :=
  .structured (fun value => (value.name, value.doc, ())) (fun given => ⟨given.1, given.2.1⟩)
    (.cons (.required text_codec) <|
      .cons (.optional (doc_codec (by omega)) none nofun (Nat.zero_le _)) .nil)
    (by decide) (fun _ => rfl) (by rintro b (_ | ⟨_, _ | ⟨_, _ | _⟩⟩) <;> simp)
    (fun _ _ => ⟨by simp, rfl⟩) fun _ _ => ⟨trivial, rfl⟩

theorem enumDef_codec (h : 5 ≤ slack) :
    Codec limit slack anything id enumDefDecoder EnumDef.toJson :=
  .structured (fun e => (e.name, e.visibility, e.doc, e.values, ()))
    (fun given => ⟨given.1, given.2.1, given.2.2.1, given.2.2.2.1⟩)
    (.cons (.required text_codec) <|
      .cons (.optional visibility_codec .hidden trivial (Nat.zero_le _)) <|
        .cons (.optional (doc_codec (by omega)) none nofun (Nat.zero_le _)) <|
          .cons (.required (.list (enumValue_codec (by omega)))) .nil)
    (by decide) (fun _ => rfl)
    (by rintro b (_ | ⟨_, _ | ⟨_, _ | ⟨_, _ | ⟨_, _ | _⟩⟩⟩⟩) <;> simp)
    (fun _ _ => ⟨by simp, rfl⟩) fun _ _ => ⟨trivial, rfl⟩

theorem fieldDef_codec (hlimit : limit ≤ nestingLimit + 1) (hslack : 3 ≤ slack) :
    Codec limit slack (fun f => ∀ e ∈ f.value, e.IsFinite) id fieldDefDecoder
      (FieldDef.toJson ofFloat) :=
  .structured (fun f => (f.name, f.visibility, f.doc, f.ty, f.value, ()))
    (fun given => ⟨given.1, given.2.1, given.2.2.1, given.2.2.2.1, given.2.2.2.2.1⟩)
    (.cons (.required text_codec) <|
      .cons (.optional visibility_codec .hidden trivial (Nat.zero_le _)) <|
        .cons (.optional (doc_codec (by omega)) none nofun (Nat.zero_le _)) <|
          .cons (.required (type_codec (by omega))) <|
            .cons (.optional (value_codec (by omega)) none nofun (Nat.zero_le _)) .nil)
    (by decide) (fun _ => rfl)
    (by rintro b (_ | ⟨_, _ | ⟨_, _ | ⟨_, _ | ⟨_, _ | ⟨_, _ | _⟩⟩⟩⟩⟩) <;> simp)
    (fun _ h => ⟨by simpa using h, rfl⟩) fun _ h => ⟨h.2.2.2.2.1, rfl⟩

theorem constDef_codec (hlimit : limit ≤ nestingLimit + 1) (hslack : 3 ≤ slack) :
    Codec limit slack (fun k => k.value.isFinite = true) id constDefDecoder
      (ConstDef.toJson ofFloat) :=
  .structured (fun k => (k.name, k.visibility, k.doc, k.ty, k.value, k.globalName, ()))
    (fun given =>
      ⟨given.1, given.2.1, given.2.2.1, given.2.2.2.1, given.2.2.2.2.1, given.2.2.2.2.2.1⟩)
    (.cons (.required text_codec) <|
      .cons (.optional visibility_codec .hidden trivial (Nat.zero_le _)) <|
        .cons (.optional (doc_codec (by omega)) none nofun (Nat.zero_le _)) <|
          .cons (.required (type_codec (by omega))) <|
            .cons (.required ((constValue_codec (nestingLimit + 1)).mono (by omega)
              (Nat.zero_le _))) <|
              .cons (.optional (text_codec.nullable nofun) none nofun (Nat.zero_le _)) .nil)
    (by decide) (fun _ => rfl)
    (by rintro b (_ | ⟨_, _ | ⟨_, _ | ⟨_, _ | ⟨_, _ | ⟨_, _ | ⟨_, _ | _⟩⟩⟩⟩⟩⟩) <;> simp)
    (fun _ h => ⟨by simpa using h, rfl⟩) fun _ h => ⟨h.2.2.2.2.1, rfl⟩

theorem param_codec (hlimit : limit ≤ nestingLimit + 1) (hslack : 3 ≤ slack) :
    Codec limit slack anything id paramDecoder Param.toJson :=
  .structured (fun param => (param.name, param.ty, param.doc, ()))
    (fun given => ⟨given.1, given.2.1, given.2.2.1⟩)
    (.cons (.required text_codec) <| .cons (.required (type_codec (by omega))) <|
      .cons (.optional (doc_codec (by omega)) none nofun (Nat.zero_le _)) .nil)
    (by decide) (fun _ => rfl) (by rintro b (_ | ⟨_, _ | ⟨_, _ | ⟨_, _ | _⟩⟩⟩) <;> simp)
    (fun _ _ => ⟨by simp, rfl⟩) fun _ _ => ⟨trivial, rfl⟩

theorem methodDef_codec (hlimit : limit ≤ nestingLimit + 1) (hslack : 5 ≤ slack) :
    Codec limit slack (fun m => ∀ s ∈ m.body, s.IsFinite) id methodDefDecoder
      (MethodDef.toJson ofFloat) := by
  refine .structured
    (fun m => (m.name, m.visibility, m.doc, m.isStatic, m.params, m.returnType, m.body, ()))
    (fun given =>
      ⟨given.1, given.2.1, given.2.2.1, given.2.2.2.1, given.2.2.2.2.1, given.2.2.2.2.2.1,
        given.2.2.2.2.2.2.1⟩)
    (.cons (.required text_codec) <|
      .cons (.optional visibility_codec .hidden trivial (Nat.zero_le _)) <|
        .cons (.optional (doc_codec (by omega)) none nofun (Nat.zero_le _)) <|
          .cons (.optional truth_codec false trivial (Nat.zero_le _)) <|
            .cons (.optional (.list (param_codec (by omega) (by omega))) [] (by simp) ?_) <|
              .cons (.required (type_codec (by omega))) <|
                .cons (.required (bodyBlock_codec (by omega))) .nil)
    (by decide) (fun _ => rfl) ?_ (fun _ h => ⟨by simpa using h, rfl⟩)
    fun _ h => ⟨h.2.2.2.2.2.2.1, rfl⟩
  · simp only [ofList, List.map_nil, Json.depth, Json.itemsDepth]
    omega
  · rintro b (_ | ⟨_, _ | ⟨_, _ | ⟨_, _ | ⟨_, _ | ⟨_, _ | ⟨_, _ | ⟨_, _ | _⟩⟩⟩⟩⟩⟩⟩) <;> simp

/-- All numbers in the member are finite. -/
def Member.IsFinite : Member → Prop
  | .field f => ∀ e ∈ f.value, e.IsFinite
  | .const k => k.value.isFinite = true
  | .method m => ∀ s ∈ m.body, s.IsFinite

theorem member_codec (hlimit : limit ≤ nestingLimit + 1) (hslack : 6 ≤ slack) :
    Codec limit slack Member.IsFinite id memberDecoder (Member.toJson ofFloat) := by
  refine .choice fun holds => ?_
  have hfield := holds "field" Member.field rfl
    ((fieldDef_codec (by omega) (by omega)).map _) fun _ h => ⟨h, rfl⟩
  have hconst := holds "const" Member.const rfl
    ((constDef_codec (by omega) (by omega)).map _) fun _ h => ⟨h, rfl⟩
  have hmethod := holds "method" Member.method rfl
    ((methodDef_codec (by omega) (by omega)).map _) fun _ h => ⟨h, rfl⟩
  refine ⟨fun m hm => ?_, fun name c hc => ?_⟩
  · cases m with
    | field f => exact hfield.chosen f hm
    | const k => exact hconst.chosen k hm
    | method m => exact hmethod.chosen m hm
  · split at hc <;> cases hc
    · exact hfield.sound _ rfl
    · exact hconst.sound _ rfl
    · exact hmethod.sound _ rfl

/-- All numbers in the class are finite. -/
def ClassDef.IsFinite (c : ClassDef) : Prop :=
  (∀ body ∈ c.constructor?, ∀ s ∈ body, s.IsFinite) ∧ (∀ m ∈ c.members, m.IsFinite) ∧
    ∀ k ∈ c.constArrays, k.value.isFinite = true

theorem classDef_codec (hlimit : limit ≤ nestingLimit + 1) (hslack : 8 ≤ slack) :
    Codec limit slack ClassDef.IsFinite id classDefDecoder (ClassDef.toJson ofFloat) := by
  have hempty : ∀ {α : Type} (f : α → Json), (ofList f []).depth ≤ slack - 1 := fun f => by
    simp only [ofList, List.map_nil, Json.depth, Json.itemsDepth]
    omega
  refine .structured
    (fun c => (c.name, c.visibility, c.doc, c.constructor?, c.members, c.constArrays, ()))
    (fun given =>
      ⟨given.1, given.2.1, given.2.2.1, given.2.2.2.1, given.2.2.2.2.1, given.2.2.2.2.2.1⟩)
    (.cons (.required text_codec) <|
      .cons (.optional visibility_codec .hidden trivial (Nat.zero_le _)) <|
        .cons (.optional (doc_codec (by omega)) none (by simp) (Nat.zero_le _)) <|
          .cons (.optional ((bodyBlock_codec (by omega)).nullable fun _ => Json.noConfusion) none
            (by simp) (Nat.zero_le _)) <|
            .cons (.optional (.list (member_codec (by omega) (by omega))) [] (by simp)
              (hempty _)) <|
              .cons (.optional (.list (constDef_codec (by omega) (by omega))) [] (by simp)
                (hempty _)) .nil)
    (by decide) (fun _ => rfl) ?_ (fun _ h => ⟨by simpa [ClassDef.IsFinite] using h, rfl⟩)
    fun _ h => ⟨⟨h.2.2.2.1, h.2.2.2.2.1, h.2.2.2.2.2.1⟩, rfl⟩
  rintro b (_ | ⟨_, _ | ⟨_, _ | ⟨_, _ | ⟨_, _ | ⟨_, _ | ⟨_, _ | _⟩⟩⟩⟩⟩⟩) <;> simp

instance (s : Stmt) : Decidable s.IsFinite := inferInstanceAs (Decidable (_ = true))

instance : DecidablePred Member.IsFinite
  | .field f => inferInstanceAs (Decidable (∀ e ∈ f.value, e.IsFinite))
  | .const _ => inferInstanceAs (Decidable (_ = true))
  | .method m => inferInstanceAs (Decidable (∀ s ∈ m.body, s.IsFinite))

instance (c : ClassDef) : Decidable c.IsFinite := inferInstanceAs (Decidable (_ ∧ _ ∧ _))

theorem insertEntry_append {entries : List (String × List UInt8)} {entry : String × List UInt8}
    (h : ∀ e ∈ entries, precedes e entry) :
    insertEntry entry.1 entry.2 entries = entries ++ [entry] := by
  induction entries with
  | nil => rfl
  | cons e rest ih =>
      rw [List.forall_mem_cons] at h
      have hlt : e.1 < entry.1 := h.1
      simp [insertEntry, String.lt_asymm hlt, hlt, ih h.2]

theorem Resources.ext {resources resources' : Resources}
    (h : resources.entries = resources'.entries) : resources = resources' := by
  cases resources
  cases resources'
  cases h
  rfl

theorem entries_foldl_insert {entries : List (String × List UInt8)} (resources : Resources)
    (h : (resources.entries ++ entries).Pairwise precedes) :
    (entries.foldl (fun resources (name, bytes) => resources.insert name bytes)
      resources).entries = resources.entries ++ entries := by
  induction entries generalizing resources with
  | nil => simp
  | cons entry rest ih =>
      have hinsert : (resources.insert entry.1 entry.2).entries = resources.entries ++ [entry] :=
        insertEntry_append fun e he => (List.pairwise_append.mp h).2.2 e he entry List.mem_cons_self
      have hrest := ih (resources.insert entry.1 entry.2) (by
        rw [hinsert]
        simpa using h)
      rw [List.foldl_cons, hrest, hinsert, List.append_assoc, List.singleton_append]

/-- The bytes of a resource. -/
def bytesForm (bytes : List UInt8) : Json := ofList (fun b => .ofNat b.toNat) bytes

theorem bytes_codec : Codec limit slack (fun _ => True) id (list uint8) bytesForm :=
  (Codec.list uint8_codec).of id (fun _ _ => ⟨by simp, rfl⟩) fun _ _ => ⟨trivial, rfl⟩

theorem depth_bytesForm (bytes : List UInt8) : (bytesForm bytes).depth ≤ 1 :=
  Json.depth_array_le.mpr (by simp [Json.ofNat, Json.depth])

theorem depth_resources (resources : Resources) : resources.toJson.depth ≤ 2 :=
  Json.depth_record_le.mpr <| List.forall_mem_map.mpr fun entry _ => depth_bytesForm entry.2

theorem resources_codec (h : 2 ≤ slack) :
    Codec limit slack anything id resourcesDecoder Resources.toJson where
  reads {resources b} _ hdepth hb := by
    cases b with
    | zero => simp [Resources.toJson, Json.record, Json.depth] at hdepth
    | succ b =>
        have hdepths := List.forall_mem_map.mp (Json.depth_record_le.mp hdepth)
        have hentries : (resources.entries.map fun e => (e.1, bytesForm e.2)).mapM
            (fun m => do return (m.1, ← list uint8 b m.2)) = some resources.entries :=
          mapM_map_eq_some fun e he => by
            have hcodec : Codec limit 0 _ id (list uint8) bytesForm := bytes_codec
            simp [hcodec.reads trivial (hdepths e he) (by omega)]
        have hinsert : resources.entries.foldl
            (fun resources (name, bytes) => resources.insert name bytes) .empty = resources :=
          Resources.ext (entries_foldl_insert .empty resources.ascending)
        change Option.bind (namedMembers (Json.keyed
          (resources.entries.map fun e => (e.1, bytesForm e.2)))) _ = some resources
        rw [namedMembers_keyed, Option.bind_some]
        change Option.bind (List.mapM _ _) _ = _
        rw [hentries, Option.bind_some, Option.pure_def, hinsert]
  plain {resources} _ _ := .record <| List.forall_mem_map.mpr fun e _ =>
    have hcodec : Codec 2 0 _ id (list uint8) bytesForm := bytes_codec
    hcodec.plain trivial (Nat.lt_succ_of_le (depth_bytesForm e.2))
  within {b _ resources} hb _ :=
    ⟨resources, trivial, rfl, (depth_resources resources).trans (h.trans hb)⟩

/-- All numbers in the program are finite. -/
def IsFinite (p : Program) : Prop := ∀ c ∈ p.classes, c.IsFinite

instance (p : Program) : Decidable p.IsFinite :=
  inferInstanceAs (Decidable (∀ c ∈ p.classes, c.IsFinite))

theorem program_codec (hlimit : limit ≤ nestingLimit + 1) (hslack : 10 ≤ slack) :
    Codec limit slack IsFinite id programDecoder (toJson ofFloat) := by
  have hempty : ∀ {α : Type} (f : α → Json), (ofList f []).depth ≤ slack - 1 := fun f => by
    simp only [ofList, List.map_nil, Json.depth, Json.itemsDepth]
    omega
  refine .structured (fun p => (p.enums, p.classes, p.globals, p.natives, p.resources, ()))
    (fun given =>
      ⟨given.1, given.2.1, given.2.2.1, given.2.2.2.1, given.2.2.2.2.1⟩)
    (.cons (.optional (.list (enumDef_codec (by omega))) [] (by simp) (hempty _)) <|
      .cons (.optional (.list (classDef_codec (by omega) (by omega))) [] (by simp) (hempty _)) <|
        .cons (.required (.list symbolId_codec)) <|
          .cons (.optional (.list text_codec) [] (by simp) (hempty _)) <|
            .cons (.optional (resources_codec (by omega)) .empty trivial
              ((depth_resources .empty).trans (by omega))) .nil)
    (by decide) (fun _ => rfl) ?_ (fun _ h => ⟨by simpa [IsFinite] using h, rfl⟩)
    fun _ h => ⟨h.2.1, rfl⟩
  rintro b (_ | ⟨_, _ | ⟨_, _ | ⟨_, _ | ⟨_, _ | ⟨_, _ | _⟩⟩⟩⟩⟩) <;> simp

theorem codec : Codec (nestingLimit + 1) nestingLimit IsFinite id programDecoder (toJson ofFloat) :=
  program_codec le_rfl (by decide)

variable {p : Program}

theorem ofJson?_toJson (hfinite : p.IsFinite) (hdepth : (p.toJson ofFloat).depth ≤ nestingLimit) :
    ofJson? (p.toJson ofFloat) = some p :=
  codec.reads hfinite hdepth (Nat.lt_succ_self _)

theorem parse?_toText (hfinite : p.IsFinite) (hdepth : (p.toJson ofFloat).depth ≤ nestingLimit) :
    Json.parse? p.toText = some (p.toJson ofFloat) :=
  (codec.plain hfinite (Nat.lt_succ_of_le hdepth)).parse?_render

/-- A program that was read from a JSON value has finite numbers only and nests within the limit. -/
theorem isFinite_of_ofJson? {j : Json} (h : ofJson? j = some p) :
    p.IsFinite ∧ (p.toJson ofFloat).depth ≤ nestingLimit := by
  obtain ⟨_, hfinite, rfl, hdepth⟩ := codec.within le_rfl h
  exact ⟨hfinite, hdepth⟩

theorem ofText_eq_ok {text : String} :
    ofText text = .ok p ↔ ∃ j, Json.parse? text = some j ∧ ofJson? j = some p ∧
      p.findDangling = none := by
  unfold ofText check
  grind

/-- Programs with finite numbers that nest within the limit are read back from their encodings, so
no two of them have the same one; and a program that was read from a text is read again from the
text it is written as. -/
theorem readsBack_within_nestingLimit :
    (∀ p : Program, p.IsFinite → (p.toJson ofFloat).depth ≤ nestingLimit →
      ofJson? (p.toJson ofFloat) = some p ∧ (Json.parse? p.toText).bind ofJson? = some p) ∧
    (∀ p q : Program, p.IsFinite → (p.toJson ofFloat).depth ≤ nestingLimit → q.IsFinite →
      p.toJson ofFloat = q.toJson ofFloat → p = q) ∧
    ∀ (text : String) (p : Program), ofText text = .ok p → ofText p.toText = .ok p := by
  refine ⟨fun p hfinite hdepth => ?_, fun p q hp hdepth hq heq => ?_, fun text p h => ?_⟩
  · have hread := ofJson?_toJson hfinite hdepth
    exact ⟨hread, by rw [parse?_toText hfinite hdepth, Option.bind_some, hread]⟩
  · have hread := ofJson?_toJson hp hdepth
    rw [heq] at hread hdepth
    exact Option.some.inj (hread.symm.trans (ofJson?_toJson hq hdepth))
  · obtain ⟨j, -, hread, hdangling⟩ := ofText_eq_ok.mp h
    obtain ⟨hfinite, hdepth⟩ := isFinite_of_ofJson? hread
    exact ofText_eq_ok.mpr
      ⟨_, parse?_toText hfinite hdepth, ofJson?_toJson hfinite hdepth, hdangling⟩

/-- A negative zero, a null receiver and a loop without clauses come back, and so does a text that
leaves all but the one needed member out. -/
theorem readsBack_shape :
    let shape : ClassDef := ⟨"Shape", .internal, some ⟨"A shape.", []⟩,
      some [.eval (.call none (.user ⟨0⟩ "Scale" true)
        [.literal (.float ⟨0x8000000000000000⟩) (.float .double), .literal .null .null] .void)],
      [.field ⟨"Data", .hidden, none, .array (.int .byte) true (some 4), none⟩,
        .const ⟨"Half", .dead, none, .float .double, .float ⟨0x3FE0000000000000⟩, some "ShapeHalf"⟩,
        .method ⟨"Scale", .exported, none, true, [⟨"x", .float .double, none⟩], .void,
          [.forLoop none none none (.block [.breakLoop, .returnValue none])]⟩],
      [⟨"Table", .hidden, none, .array .bool false none, .array [.bool true, .str "\""], none⟩]⟩
    let p : Program := ⟨[⟨"Color", .exported, none, [⟨"Red", none⟩]⟩], [shape],
      [.enumeration ⟨0⟩, .classDef ⟨0⟩], ["var x;"], Resources.empty.insert "logo" [1, 255]⟩
    p.IsFinite ∧ (p.toJson ofFloat).depth ≤ nestingLimit ∧ ofJson? (p.toJson ofFloat) = some p ∧
      ofText "\x7b\"globals\":[]\x7d" = .ok .empty ∧ ofText Program.empty.toText = .ok .empty := by
  intro shape p
  have hfinite : p.IsFinite := by decide +kernel
  have hdepth : (p.toJson ofFloat).depth ≤ nestingLimit := by decide +kernel
  have hplain : (Json.record [("globals", .array [])]).Plain :=
    .record (by simpa using .array nofun)
  have htext : (Json.record [("globals", .array [])]).render = "\x7b\"globals\":[]\x7d" := by
    decide +kernel
  have hread : ofText "\x7b\"globals\":[]\x7d" = .ok .empty :=
    ofText_eq_ok.mpr ⟨_, htext ▸ hplain.parse?_render, rfl, rfl⟩
  exact ⟨hfinite, hdepth, (readsBack_within_nestingLimit.1 p hfinite hdepth).1, hread,
    readsBack_within_nestingLimit.2.2 _ _ hread⟩

end Emitter.Program
